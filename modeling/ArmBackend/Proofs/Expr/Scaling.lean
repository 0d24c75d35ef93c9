import ArmBackend.Proofs.Expr.Arithmetic
import ArmBackend.Proofs.Expr.Array
import ArmBackend.Proofs.Expr.Bare
import ArmBackend.Proofs.Expr.Evaluation
import ArmBackend.Proofs.Expr.Lowers

/-!
# Pointer arithmetic

Beside a pointer an integer is multiplied by the size of what the pointer points to, once. The product is a
word, so nothing is cut off a char.
-/

namespace ArmBackend

variable {ctx : Context} {op : BinOp} {lhs rhs p k : Expr} {pointee : Ty} {size : Nat}

/-! ## The scaled operand -/

theorem BinOp.result_mul_int {ty : Ty} (h : ty.isInteger = true) :
    BinOp.result (.arith .mul) ty .int = .int := by
  rcases Ty.isInteger_iff.mp h with rfl | rfl <;> rfl

namespace Build

@[simp] theorem scaled_one (k : Expr) : scaled k 1 = k := if_pos rfl

theorem scaled_eq (hk : k.ty.isInteger = true) (hsize : size ≠ 1) :
    scaled k size = .binary (.arith .mul) k (int size) .int := by
  rw [scaled, if_neg hsize, BinOp.result_mul_int hk]

theorem eval_scaled (hk : k.ty.isInteger = true) (size : Nat) (ctx : Context) :
    (scaled k size).eval ctx = (k.eval ctx).map (· * BitVec.ofNat 64 size) := by
  by_cases hsize : size = 1
  · subst hsize
    simp
  · rw [scaled_eq hk hsize]
    cases hv : k.eval ctx with
    | none => simp [Expr.eval, hv]
    | some b =>
      have hwidth : Ty.int.width = .word := rfl
      simp [Expr.eval, hv, int, literal, Literal.bits, hwidth, BinOp.apply, Arith.eval]

theorem arrayFree_scaled (k : Expr) (size : Nat) : (scaled k size).arrayFree = k.arrayFree := by
  rw [scaled]
  split
  · rfl
  · exact Bool.and_true _

theorem proper_scaled {signatures : List Signature} (h : k.Proper signatures) (size : Nat) :
    (scaled k size).Proper signatures := by
  rw [scaled]
  split
  · exact h
  · exact ⟨h, trivial⟩

theorem accepted_scaled {signatures : List Signature} {scope : List String} (k : Expr) (size : Nat) :
    (scaled k size).Accepted signatures scope ↔ k.Accepted signatures scope := by
  rw [scaled]
  split
  · rfl
  · exact and_iff_left trivial

/-! ## The operands -/

theorem scaledOperands_pointer (hcompare : op.isComparison = false) (hp : p.ty = .ptr pointee)
    (hk : k.ty.isInteger = true) :
    scaledOperands op p k = (p, scaled k pointee.size) ∧
      scaledOperands op k p = (scaled k pointee.size, p) := by
  have hpointee : p.ty.pointee? = some pointee := by rw [hp]; rfl
  simp [scaledOperands, hcompare, hpointee, Ty.pointee?_eq_none hk]

theorem binary_unscaled {expr : Expr} (h : binary op lhs rhs = .ok expr)
    (hplain : op.isComparison = true ∨ lhs.ty.isInteger = true ∧ rhs.ty.isInteger = true) :
    expr = .binary op lhs rhs (op.result lhs.ty rhs.ty) := by
  obtain ⟨-, rfl⟩ := binary_ok h
  have hsame : scaledOperands op lhs rhs = (lhs, rhs) := by
    rcases hplain with hcompare | ⟨hlhs, hrhs⟩
    · rw [scaledOperands, if_pos hcompare]
    · exact Expr.scaledOperands_of_isInteger op hlhs hrhs
  rw [hsame]

theorem binary_eq_ok (h : op.accepts lhs.ty rhs.ty = true) :
    binary op lhs rhs = .ok (.binary op (scaledOperands op lhs rhs).1 (scaledOperands op lhs rhs).2
      (op.result lhs.ty rhs.ty)) := by
  rw [binary, Check.binary_eq_ok.mpr h]
  rfl

end Build

/-! ## Evaluation along branches -/

theorem Ty.keeps_word {ty : Ty} (h : ty.width = .word) {v kept : Word} : ty.Keeps v kept ↔ kept = v := by
  simp [Keeps, h]

namespace Scene

variable {S : Scene} {m m' : State} {visits : List Visit} {v : Word}

def EvaluatesBoth (S : Scene) (first second : Expr) (m : State) (visits : List Visit) (a b : Word)
    (m' : State) : Prop :=
  ∃ before between after, visits = before ++ after ∧ S.Evaluates first m before a between ∧
    S.Evaluates second between after b m'

theorem evaluates_binary {ty : Ty} :
    S.Evaluates (.binary op lhs rhs ty) m visits v m' ↔
      ∃ a b left right, S.EvaluatesBoth lhs rhs m visits a b m' ∧ ty.Keeps a left ∧
        rhs.ty.Keeps b right ∧ v = (op.result ty rhs.ty).width.low (op.apply left right) := by
  constructor
  · intro h
    cases h with
    | binary hlhs hleft hrhs hright => exact ⟨_, _, _, _, ⟨_, _, _, rfl, hlhs, hrhs⟩, hleft, hright, rfl⟩
  · rintro ⟨a, b, left, right, ⟨before, between, after, rfl, hlhs, hrhs⟩, hleft, hright, rfl⟩
    exact .binary hlhs hleft hrhs hright

theorem evaluates_literal {value : Literal} {ty : Ty} :
    S.Evaluates (.literal value ty) m visits v m' ↔ visits = [] ∧ v = value.bits ∧ m' = m := by
  constructor
  · intro h
    cases h
    exact ⟨rfl, rfl, rfl⟩
  · rintro ⟨rfl, rfl, rfl⟩
    exact .literal value ty _

/-- The factor is a word and so is the temporary that the offset waits in. -/
theorem evaluates_scaled (hk : k.ty.isInteger = true) (size : Nat) :
    S.Evaluates (Build.scaled k size) m visits v m' ↔
      ∃ b, S.Evaluates k m visits b m' ∧ v = b * BitVec.ofNat 64 size := by
  by_cases hsize : size = 1
  · subst hsize
    simp
  · have hword : Ty.int.width = .word := rfl
    have hbits : (Literal.int (.ofInt 64 size)).bits = BitVec.ofNat 64 size := BitVec.ofInt_natCast 64 size
    have hresult : (BinOp.result (.arith .mul) .int (Build.int size).ty).width = .word := rfl
    have hvalue : ∀ a b, BinOp.apply (.arith .mul) a b = a * b := fun _ _ => rfl
    rw [Build.scaled_eq hk hsize, evaluates_binary, hresult]
    simp only [Ty.keeps_word hword, EvaluatesBoth, Build.int, Build.literal, evaluates_literal, hbits, hvalue,
      Literal.ty, Expr.ty, Width.low_word]
    constructor
    · rintro ⟨b, _, left, right, ⟨before, _, _, rfl, hb, rfl, rfl, rfl⟩, rfl, rfl, rfl⟩
      exact ⟨left, by rwa [List.append_nil], rfl⟩
    · rintro ⟨b, hb, rfl⟩
      exact ⟨b, _, b, _, ⟨visits, _, [], (List.append_nil _).symm, hb, rfl, rfl, rfl⟩, rfl, rfl, rfl⟩

theorem evaluatesBoth_scaled (hk : k.ty.isInteger = true) (size : Nat) {a b : Word} :
    (S.EvaluatesBoth p (Build.scaled k size) m visits a b m' ↔
      ∃ c, S.EvaluatesBoth p k m visits a c m' ∧ b = c * BitVec.ofNat 64 size) ∧
    (S.EvaluatesBoth (Build.scaled k size) p m visits a b m' ↔
      ∃ c, S.EvaluatesBoth k p m visits c b m' ∧ a = c * BitVec.ofNat 64 size) := by
  simp only [EvaluatesBoth, evaluates_scaled hk]
  refine ⟨⟨?_, ?_⟩, ⟨?_, ?_⟩⟩
  · rintro ⟨before, between, after, rfl, hp, c, hc, rfl⟩
    exact ⟨c, ⟨before, between, after, rfl, hp, hc⟩, rfl⟩
  · rintro ⟨c, ⟨before, between, after, rfl, hp, hc⟩, rfl⟩
    exact ⟨before, between, after, rfl, hp, c, hc, rfl⟩
  · rintro ⟨before, between, after, rfl, ⟨c, hc, rfl⟩, hp⟩
    exact ⟨c, ⟨before, between, after, rfl, hc, hp⟩, rfl⟩
  · rintro ⟨c, ⟨before, between, after, rfl, hc, hp⟩, rfl⟩
    exact ⟨before, between, after, rfl, ⟨c, hc, rfl⟩, hp⟩

theorem keeps_scaled (hk : k.ty.isInteger = true) {size : Nat} {b kept : Word} :
    (Build.scaled k size).ty.Keeps (b * BitVec.ofNat 64 size) kept ↔
      ∃ b', (b' = b ∨ size = 1 ∧ b' = k.ty.width.low b) ∧ kept = b' * BitVec.ofNat 64 size := by
  by_cases hsize : size = 1
  · subst hsize
    simp [Ty.Keeps]
  · have hword : (Build.scaled k size).ty.width = .word := by
      rw [Build.scaled_eq hk hsize]
      rfl
    rw [Ty.keeps_word hword]
    simp [hsize]

end Scene

/-! ## Addresses -/

/-- The expression is of type `T*` and is worth what `combine` makes of the operands, of which it evaluates
the first one first. It is lowered wherever they are, so its operators are accepted once more. -/
structure Expr.Addresses (expr : Expr) (pointee : Ty) (combine : Word → Word → Word) (first second : Expr) :
    Prop where
  ty : expr.ty = .ptr pointee
  checked : expr.Checked
  eval : ∀ ctx, expr.eval ctx = (first.eval ctx).bind fun a => (second.eval ctx).map (combine a)
  /-- The code for any target leaves the address there. -/
  code : ∀ (S : Setting) {a b}, first.eval S.ctx = some a → second.eval S.ctx = some b →
    S.Evaluates expr (combine a b)
  /-- The same for operands with calls and traps. A temporary cuts nothing but an operand that is a byte, and
  only where nothing is scaled. -/
  branches : ∀ {S : Scene} {m visits v m'}, S.Evaluates expr m visits v m' ↔
    ∃ a b kept, S.EvaluatesBoth first second m visits a b m' ∧
      (kept = b ∨ pointee.size = 1 ∧ kept = second.ty.width.low b) ∧ v = combine a kept
  lowers : ∀ {signatures target σ f}, first.Proper signatures → second.Proper signatures →
    target.isAssigned = true → Session.Hosts signatures σ f →
    ((expr.lower target).Succeeds σ ↔
      first.Accepted signatures f.names ∧ second.Accepted signatures f.names)
  arrayFree : ∀ {target σ}, (expr.lower target).Succeeds σ →
    first.arrayFree = true ∧ second.arrayFree = true

theorem Expr.Built.addresses {combine : Word → Word → Word} {first second : Expr}
    (hbuilt : (Expr.binary op lhs rhs (.ptr pointee)).Built)
    (heval : ∀ ctx, (Expr.binary op lhs rhs (.ptr pointee)).eval ctx =
      (first.eval ctx).bind fun a => (second.eval ctx).map (combine a))
    (hbranches : ∀ {S : Scene} {m visits v m'},
      S.Evaluates (.binary op lhs rhs (.ptr pointee)) m visits v m' ↔
        ∃ a b kept, S.EvaluatesBoth first second m visits a b m' ∧
          (kept = b ∨ pointee.size = 1 ∧ kept = second.ty.width.low b) ∧ v = combine a kept)
    (hproper : ∀ {signatures}, first.Proper signatures → second.Proper signatures →
      lhs.Proper signatures ∧ rhs.Proper signatures)
    (haccepted : ∀ {signatures scope}, lhs.Accepted signatures scope ∧ rhs.Accepted signatures scope ↔
      first.Accepted signatures scope ∧ second.Accepted signatures scope)
    (hfree : lhs.arrayFree = true → rhs.arrayFree = true →
      first.arrayFree = true ∧ second.arrayFree = true) :
    (Expr.binary op lhs rhs (.ptr pointee)).Addresses pointee combine first second where
  ty := rfl
  checked := hbuilt.checked
  eval := heval
  code := fun S {a b} ha hb => by
    have hv := heval S.ctx
    rw [ha, hb] at hv
    exact Setting.evaluates _ (arrayFree_of_eval hv) hbuilt.wellTyped hv
  branches := hbranches
  lowers := fun {signatures target σ f} hfirst hsecond htarget hσ => by
    have hwhole : (Expr.binary op lhs rhs (.ptr pointee)).Proper signatures := hproper hfirst hsecond
    have hlowers := hwhole.lowers hσ.knows.sized hbuilt.checked hbuilt.wellTyped
    exact (hlowers.succeeds htarget hσ).trans haccepted
  arrayFree := fun {target σ} ⟨code, τ, hcode⟩ => by
    obtain ⟨hl, hr⟩ := binary_bare lhs.bare rhs.bare hcode
    exact hfree hl hr

namespace Build

theorem width_ptr (ty : Ty) : (Ty.ptr ty).width = .word := rfl

theorem width_result_ptr (hcompare : op.isComparison = false) (ty : Ty) :
    (op.result (.ptr pointee) ty).width = .word := by
  simp [BinOp.result, hcompare, Ty.isPointer, width_ptr]

theorem addresses_right (hcompare : op.isComparison = false) (hk : k.ty.isInteger = true)
    (hbuilt : (Expr.binary op p (scaled k pointee.size) (.ptr pointee)).Built) :
    (Expr.binary op p (scaled k pointee.size) (.ptr pointee)).Addresses pointee
      (fun a b => op.apply a (b * BitVec.ofNat 64 pointee.size)) p k := by
  refine hbuilt.addresses (fun ctx => ?_) ?_ (fun hp hk => ⟨hp, proper_scaled hk _⟩)
    (and_congr_right fun _ => accepted_scaled k _) fun hp hk => ⟨hp, arrayFree_scaled k _ ▸ hk⟩
  · simp only [Expr.eval, eval_scaled hk, Option.map_map, width_ptr, Width.low_word]
    rfl
  · intro S m visits v m'
    simp only [Scene.evaluates_binary, (Scene.evaluatesBoth_scaled hk _).1, width_result_ptr hcompare,
      Ty.keeps_word (width_ptr _), Width.low_word]
    constructor
    · rintro ⟨a, _, _, right, ⟨b, hboth, rfl⟩, rfl, hright, rfl⟩
      obtain ⟨kept, hkept, rfl⟩ := (Scene.keeps_scaled hk).mp hright
      exact ⟨_, b, kept, hboth, hkept, rfl⟩
    · rintro ⟨a, b, kept, hboth, hkept, rfl⟩
      exact ⟨a, _, a, _, ⟨b, hboth, rfl⟩, rfl, (Scene.keeps_scaled hk).mpr ⟨kept, hkept, rfl⟩, rfl⟩

theorem addresses_left (hcompare : op.isComparison = false) (hk : k.ty.isInteger = true)
    (hp : p.ty = .ptr pointee) (hbuilt : (Expr.binary op (scaled k pointee.size) p (.ptr pointee)).Built) :
    (Expr.binary op (scaled k pointee.size) p (.ptr pointee)).Addresses pointee
      (fun b a => op.apply (b * BitVec.ofNat 64 pointee.size) a) k p := by
  refine hbuilt.addresses (fun ctx => ?_) ?_ (fun hk hp => ⟨proper_scaled hk _, hp⟩)
    (and_congr_left fun _ => accepted_scaled k _) fun hk hp => ⟨arrayFree_scaled k _ ▸ hk, hp⟩
  · simp only [Expr.eval, eval_scaled hk, Option.bind_map, width_ptr, Width.low_word]
    rfl
  · intro S m visits v m'
    have hwidth : p.ty.width = .word := by rw [hp, width_ptr]
    simp only [Scene.evaluates_binary, (Scene.evaluatesBoth_scaled hk _).2, width_result_ptr hcompare,
      Ty.keeps_word (width_ptr _), Ty.keeps_word hwidth, hwidth, Width.low_word]
    constructor
    · rintro ⟨_, a, _, _, ⟨b, hboth, rfl⟩, rfl, rfl, rfl⟩
      exact ⟨b, _, _, hboth, Or.inl rfl, rfl⟩
    · -- The second operand is the pointer, of which a temporary keeps every byte.
      rintro ⟨b, a, kept, hboth, hkept, rfl⟩
      obtain rfl := hkept.elim id And.right
      exact ⟨_, _, _, _, ⟨b, hboth, rfl⟩, rfl, rfl, rfl⟩

/-- Beside a pointer to `T` an integer counts in units of `T`, whichever side it is on and whatever it is
made of. Comparisons and operations on two integers take their operands as they are. -/
theorem pointer_arithmetic_scaled (hp : p.Built) (hk : k.Built) (hty : p.ty = .ptr pointee)
    (hstorable : pointee.storable = true) (hinteger : k.ty.isInteger = true) :
    (∃ sum, binary (.arith .add) p k = .ok sum ∧
      sum.Addresses pointee (fun a b => a + b * BitVec.ofNat 64 pointee.size) p k) ∧
    (∃ sum, binary (.arith .add) k p = .ok sum ∧
      sum.Addresses pointee (fun b a => b * BitVec.ofNat 64 pointee.size + a) k p) ∧
    (∃ difference, binary (.arith .sub) p k = .ok difference ∧
      difference.Addresses pointee (fun a b => a - b * BitVec.ofNat 64 pointee.size) p k) ∧
    ∀ {op lhs rhs expr}, binary op lhs rhs = .ok expr →
      op.isComparison = true ∨ lhs.ty.isInteger = true ∧ rhs.ty.isInteger = true →
      expr = .binary op lhs rhs (op.result lhs.ty rhs.ty) := by
  have hright : ∀ op, op = .arith .add ∨ op = .arith .sub →
      binary op p k = .ok (.binary op p (scaled k pointee.size) (.ptr pointee)) := by
    intro op hop
    have hcompare : op.isComparison = false := by rcases hop with rfl | rfl <;> rfl
    have haccepts : op.accepts p.ty k.ty = true := by
      rw [hty, (accepts_of_isInteger hinteger).1]
      rcases hop with rfl | rfl <;> exact hstorable
    rw [binary_eq_ok haccepts, (scaledOperands_pointer hcompare hty hinteger).1, hty]
    rcases hop with rfl | rfl <;> rfl
  have hleft : binary (.arith .add) k p =
      .ok (.binary (.arith .add) (scaled k pointee.size) p (.ptr pointee)) := by
    have haccepts : BinOp.accepts (.arith .add) k.ty p.ty = true := by
      rw [hty, (accepts_of_isInteger hinteger).2]
      exact hstorable
    rw [binary_eq_ok haccepts, (scaledOperands_pointer rfl hty hinteger).2, hty]
    rcases Ty.isInteger_iff.mp hinteger with hk | hk <;> rw [hk] <;> rfl
  have hadd := hright _ (Or.inl rfl)
  have hsub := hright _ (Or.inr rfl)
  exact ⟨⟨_, hadd, addresses_right rfl hinteger (.binary hp hk hadd)⟩,
    ⟨_, hleft, addresses_left rfl hinteger hty (.binary hk hp hleft)⟩,
    ⟨_, hsub, addresses_right rfl hinteger (.binary hp hk hsub)⟩, binary_unscaled⟩

/-- A char counts in full beside a pointer to words: from 4096 it is 1600 bytes to the end of 200 words, and
8 less to the last of them. -/
theorem pointer_arithmetic_scaled_char :
    ∃ sum difference, binary (.arith .add) (var "p" (.ptr .int)) (char 200) = .ok sum ∧
      binary (.arith .sub) sum (int 1) = .ok difference ∧
      ∀ ctx : Context, ctx.value "p" (.ptr .int) = some 4096 →
        sum.eval ctx = some 5696 ∧ difference.eval ctx = some 5688 := by
  have hvar : (var "p" (.ptr .int)).Built := .var "p" (.ptr .int)
  have hty : (var "p" (.ptr .int)).ty = .ptr .int := rfl
  obtain ⟨⟨sum, hsum, hend⟩, -⟩ := pointer_arithmetic_scaled hvar (.literal (.char 200)) hty rfl rfl
  obtain ⟨-, -, ⟨difference, hdifference, hlast⟩, -⟩ :=
    pointer_arithmetic_scaled (.binary hvar (.literal (.char 200)) hsum) (.literal (.int 1)) hend.ty rfl rfl
  refine ⟨sum, difference, hsum, hdifference, fun ctx hctx => ?_⟩
  have hfirst : sum.eval ctx = some 5696 := by
    rw [hend.eval, show (var "p" (.ptr .int)).eval ctx = some 4096 from hctx]
    rfl
  exact ⟨hfirst, by rw [hlast.eval, hfirst]; rfl⟩

end Build

end ArmBackend
