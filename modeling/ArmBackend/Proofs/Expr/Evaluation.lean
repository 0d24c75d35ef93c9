import ArmBackend.Proofs.Expr.Correct
import ArmBackend.Proofs.Machine.Trace

/-!
# Expressions that call out

What an expression with calls and traps is worth depends on what each of these returns and does to
memory. An evaluation therefore goes along the branches that are taken, one for each call: it says which
operands each of them has to pass, and takes their results and memory from where they return.
-/

namespace ArmBackend

/-- What a temporary of type `ty` may keep of a value: a slot of one byte keeps its low byte. -/
def Ty.Keeps (ty : Ty) (v kept : Word) : Prop := kept = v ∨ kept = ty.width.low v

theorem Ty.Keeps.eq {ty : Ty} {v kept : Word} (h : ty.Keeps v kept) (hv : ty.width.low v = v) :
    kept = v :=
  h.elim id fun heq => heq.trans hv

theorem Reservation.keeps (res : Reservation) (v : Word) : res.ty.Keeps v (res.keep v) := by
  rw [keep]
  split
  · exact Or.inr rfl
  · exact Or.inl rfl

/-- What the names in an expression stand for, and the storage that its code takes for itself. -/
structure Scene where
  /-- The slot that a name resolves to. -/
  slot : String → Option Slot
  /-- Where a string constant lies. -/
  text : String → Word
  /-- The symbols of functions. -/
  label : String → Label
  framePointer : Word
  /-- Bytes of the frame that are taken before. -/
  low : Nat
  /-- Bytes from the stack pointer to the frame pointer. -/
  extent : Nat

namespace Scene

def Spill (S : Scene) (a : Word) : Prop :=
  Scratch S.framePointer S.low (S.extent + Setting.saveRoom) a

/-- A load from memory as in `m` may yield `v`. One that touches the spill area may yield anything. -/
def Reads (S : Scene) (m : State) (width : Width) (a v : Word) : Prop :=
  (∀ b, (b - a).toNat < width.bytes → ¬ S.Spill b) → v = m.load width a

/-! ## Branches -/

def gate (S : Scene) (callee : String) : Gate :=
  if callee = trapCallee then .trap else .call (S.label callee)

def operandRegs (callee : String) : List Register :=
  if callee = trapCallee then .trapNumber :: Register.argBank else Register.argBank

structure Passes (S : Scene) (callee : String) (values : List Word) (visit : Visit) : Prop where
  gate : visit.gate = S.gate callee
  operands : values <+: (operandRegs callee).map visit.before.regs

/-! ## Evaluation -/

mutual

/-- The expression may be worth a word, where it takes the branches that are listed. The first state
has the memory that it starts from, the last one that of the latest branch. -/
inductive Evaluates (S : Scene) : Expr → State → List Visit → Word → State → Prop
  | literal (value : Literal) (ty : Ty) (m : State) :
    Evaluates S (.literal value ty) m [] value.bits m
  | var {name : String} {slot : Slot} {m : State} {v : Word} (hslot : S.slot name = some slot)
    (hread : S.Reads m slot.ty.width (S.framePointer - .ofNat 64 slot.offset) v) (ty : Ty) :
    Evaluates S (.var name ty) m [] v m
  | deref {pointer : Expr} {m m' : State} {visits : List Visit} {a kept v : Word}
    (hpointer : Evaluates S pointer m visits a m') (hkept : pointer.ty.Keeps a kept)
    (hread : S.Reads m' (UnOp.deref.result pointer.ty).width kept v) (ty : Ty) :
    Evaluates S (.deref pointer ty) m visits v m'
  | load {pointer : Expr} {m m' : State} {visits : List Visit} {a kept v : Word}
    (hpointer : Evaluates S pointer m visits a m') (hkept : pointer.ty.Keeps a kept)
    (hread : S.Reads m' (UnOp.deref.result pointer.ty).width kept v) (ty : Ty) :
    Evaluates S (.unary .deref pointer ty) m visits v m'
  | unary {op : UnOp} {operand : Expr} {m m' : State} {visits : List Visit} {a kept : Word}
    (haddr : op ≠ .addrOf) (hderef : op ≠ .deref) (hoperand : Evaluates S operand m visits a m')
    (hkept : operand.ty.Keeps a kept) (ty : Ty) :
    Evaluates S (.unary op operand ty) m visits (op.apply operand.ty kept) m'
  | addressOf {name : String} {slot : Slot} (hslot : S.slot name = some slot) (ty ty' : Ty)
    (m : State) :
    Evaluates S (.unary .addrOf (.var name ty) ty') m [] (S.framePointer - .ofNat 64 slot.offset) m
  /-- The left operand waits in a temporary that has the type of the whole. -/
  | binary {op : BinOp} {lhs rhs : Expr} {ty : Ty} {m m₁ m₂ : State} {visits visits' : List Visit}
    {a b left right : Word} (hlhs : Evaluates S lhs m visits a m₁) (hleft : ty.Keeps a left)
    (hrhs : Evaluates S rhs m₁ visits' b m₂) (hright : rhs.ty.Keeps b right) :
    Evaluates S (.binary op lhs rhs ty) m (visits ++ visits')
      ((op.result ty rhs.ty).width.low (op.apply left right)) m₂
  | call {callee : String} {args : List Expr} {m m' : State} {visits : List Visit}
    {values : List Word} {visit : Visit} (hargs : Arguments S args m visits values m')
    (hpasses : S.Passes callee values visit) (ty : Ty) :
    Evaluates S (.call callee args ty) m (visits ++ [visit]) (visit.after.regs .result) visit.after
  | str (text : String) (ty : Ty) (m : State) : Evaluates S (.str text ty) m [] (S.text text) m
  /-- What has no value leaves any behind. -/
  | empty (ty : Ty) (m : State) (v : Word) : Evaluates S (.empty ty) m [] v m

/-- The operands of a call may be worth these words. The ones that call out are evaluated first, and
the others when they have all returned. -/
inductive Arguments (S : Scene) : List Expr → State → List Visit → List Word → State → Prop
  | nil (m : State) : Arguments S [] m [] [] m
  | shielded {arg : Expr} {args : List Expr} {m m₁ m' : State} {visits visits' : List Visit}
    {v kept : Word} {values : List Word} (hcalls : arg.containsCalls = true)
    (harg : Evaluates S arg m visits v m₁) (hkept : arg.ty.Keeps v kept)
    (hargs : Arguments S args m₁ visits' values m') :
    Arguments S (arg :: args) m (visits ++ visits') (kept :: values) m'
  | direct {arg : Expr} {args : List Expr} {m m' : State} {visits : List Visit} {v : Word}
    {values : List Word} (hcalls : arg.containsCalls = false) (harg : Evaluates S arg m' [] v m')
    (hargs : Arguments S args m visits values m') :
    Arguments S (arg :: args) m visits (v :: values) m'

end

variable {S : Scene}

theorem Evaluates.quiet {expr : Expr} {m m' : State} {visits : List Visit} {v : Word}
    (h : S.Evaluates expr m visits v m') (hcalls : expr.containsCalls = false) :
    visits = [] ∧ m' = m := by
  induction expr using Expr.induct generalizing m m' visits v with
  | literal value ty => cases h; exact ⟨rfl, rfl⟩
  | var name ty => cases h; exact ⟨rfl, rfl⟩
  | str text ty => cases h; exact ⟨rfl, rfl⟩
  | empty ty => cases h; exact ⟨rfl, rfl⟩
  | deref pointer ty ih =>
    cases h with
    | deref hpointer => exact ih hpointer hcalls
  | call callee args ty ih => cases hcalls
  | binary op lhs rhs ty ihl ihr =>
    obtain ⟨hl, hr⟩ := Bool.or_eq_false_iff.mp hcalls
    cases h with
    | binary hlhs _ hrhs =>
      obtain ⟨rfl, rfl⟩ := ihl hlhs hl
      exact ihr hrhs hr
  | unary op operand ty ih =>
    cases h with
    | load hpointer => exact ih hpointer hcalls
    | unary _ _ hoperand => exact ih hoperand hcalls
    | addressOf => exact ⟨rfl, rfl⟩
  | array elements ty ih => cases h

theorem Evaluates.of_call {callee : String} {args : List Expr} {ty : Ty} {m m' : State}
    {visits : List Visit} {v : Word} (h : S.Evaluates (.call callee args ty) m visits v m') :
    ∃ before visit values m₁, visits = before ++ [visit] ∧ S.Arguments args m before values m₁ ∧
      S.Passes callee values visit ∧ v = visit.after.regs .result ∧ m' = visit.after := by
  cases h with
  | call hargs hpasses => exact ⟨_, _, _, _, rfl, hargs, hpasses, rfl, rfl⟩

/-! ## Values that are fixed -/

structure Fixes (S : Scene) (ctx : Context) (m : State) : Prop where
  value : ∀ {name ty v}, ctx.value name ty = some v → ∃ slot, S.slot name = some slot ∧
    ∀ w, S.Reads m slot.ty.width (S.framePointer - .ofNat 64 slot.offset) w → w = v
  load : ∀ {width a v}, ctx.load width a = some v → ∀ w, S.Reads m width a w → w = v
  address : ∀ {name a}, ctx.address name = some a → ∃ slot, S.slot name = some slot ∧
    S.framePointer - .ofNat 64 slot.offset = a
  text : S.text = ctx.text

structure Answers (S : Scene) (ctx : Context) (visit : Visit) : Prop where
  result : ∀ {callee values v}, callee ≠ trapCallee → S.Passes callee values visit →
    ctx.call callee values = some (some v) → visit.after.regs .result = v
  fixes : S.Fixes ctx visit.after

variable {ctx : Context}

theorem Arguments.eq_evalAll {args : List Expr} {m m' : State} {visits : List Visit}
    {values values' : List Word}
    (hargs : ∀ arg ∈ args, ∀ {m m' visits v w}, S.Fixes ctx m →
      (∀ visit ∈ visits, S.Answers ctx visit) → arg.eval ctx = some v →
      S.Evaluates arg m visits w m' → arg.ty.width.low v = v ∧ w = v ∧ S.Fixes ctx m')
    (hm : S.Fixes ctx m) (hvisits : ∀ visit ∈ visits, S.Answers ctx visit)
    (hvalues : List.Forall₂ (fun arg v => arg.eval ctx = some v) args values)
    (h : S.Arguments args m visits values' m') : values' = values ∧ S.Fixes ctx m' := by
  induction hvalues generalizing m visits values' with
  | nil =>
    cases h
    exact ⟨rfl, hm⟩
  | @cons arg v args values hv _ ih =>
    have hargs' := fun other hother => @hargs other (List.mem_cons_of_mem _ hother)
    cases h with
    | shielded _ harg hkept hrest =>
      obtain ⟨hlow, rfl, hm₁⟩ := hargs arg List.mem_cons_self hm
        (fun visit hvisit => hvisits visit (List.mem_append_left _ hvisit)) hv harg
      obtain ⟨rfl, hm'⟩ := ih hargs' hm₁
        (fun visit hvisit => hvisits visit (List.mem_append_right _ hvisit)) hrest
      exact ⟨by rw [hkept.eq hlow], hm'⟩
    | direct _ harg hrest =>
      obtain ⟨rfl, hm'⟩ := ih hargs' hm hvisits hrest
      obtain ⟨-, rfl, -⟩ := hargs arg List.mem_cons_self hm' (List.forall_mem_nil _) hv harg
      exact ⟨rfl, hm'⟩

/-- Where functions return what calls of them are worth, an expression that is worth something has no
other evaluation. -/
theorem Evaluates.eq_eval (htyped : ctx.Typed) {expr : Expr} (hexpr : expr.WellTyped)
    {m m' : State} {visits : List Visit} {v w : Word} (hm : S.Fixes ctx m)
    (hvisits : ∀ visit ∈ visits, S.Answers ctx visit) (hv : expr.eval ctx = some v)
    (h : S.Evaluates expr m visits w m') : w = v ∧ S.Fixes ctx m' := by
  induction expr using Expr.induct generalizing m m' visits v w with
  | literal value ty =>
    cases h
    cases hv
    exact ⟨rfl, hm⟩
  | var name ty =>
    cases h with
    | var hslot hread =>
      obtain ⟨slot, hslot', heq⟩ := hm.value hv
      cases hslot.symm.trans hslot'
      exact ⟨heq w hread, hm⟩
  | deref pointer ty ih =>
    obtain ⟨hpointer, rfl⟩ := hexpr
    obtain ⟨a, ha, hload⟩ := Option.bind_eq_some_iff.mp hv
    cases h with
    | deref hevaluates hkept hread =>
      obtain ⟨rfl, hm'⟩ := ih hpointer hm hvisits ha hevaluates
      rw [hkept.eq (Expr.low_eval htyped hpointer ha)] at hread
      exact ⟨hm'.load hload w hread, hm'⟩
  | call callee args ty ih =>
    have hne : callee ≠ trapCallee := by
      rintro rfl
      simp [Expr.eval] at hv
    rw [Expr.eval, if_neg hne] at hv
    obtain ⟨values, hvalues, hcall⟩ := Option.bind_eq_some_iff.mp hv
    obtain ⟨result, hresult, hfilter⟩ := Option.bind_eq_some_iff.mp hcall
    obtain ⟨rfl, -⟩ := Option.filter_eq_some_iff.mp hfilter
    obtain ⟨before, visit, values', m₁, rfl, hargs, hpasses, rfl, rfl⟩ := h.of_call
    have htypes := Expr.allWellTyped_iff.mp hexpr
    obtain ⟨rfl, -⟩ := hargs.eq_evalAll
      (fun arg harg _ _ _ _ _ hm hvisits hv h =>
        ⟨Expr.low_eval htyped (htypes arg harg) hv, ih arg harg (htypes arg harg) hm hvisits hv h⟩)
      hm (fun visit hvisit => hvisits visit (List.mem_append_left _ hvisit))
      (Expr.evalAll_eq_some hvalues)
    have hanswers := hvisits visit (List.mem_append_right _ List.mem_cons_self)
    exact ⟨hanswers.result hne hpasses hresult, hanswers.fixes⟩
  | binary op lhs rhs ty ihl ihr =>
    obtain ⟨hl, hr, rfl⟩ := hexpr
    obtain ⟨a, ha, hmap⟩ := Option.bind_eq_some_iff.mp hv
    obtain ⟨b, hb, rfl⟩ := Option.map_eq_some_iff.mp hmap
    cases h with
    | binary hlhs hleft hrhs hright =>
      obtain ⟨rfl, hm₁⟩ := ihl hl hm
        (fun visit hvisit => hvisits visit (List.mem_append_left _ hvisit)) ha hlhs
      obtain ⟨rfl, hm₂⟩ := ihr hr hm₁
        (fun visit hvisit => hvisits visit (List.mem_append_right _ hvisit)) hb hrhs
      rw [hleft.eq (BinOp.low_result (Expr.low_eval htyped hl ha)),
        hright.eq (Expr.low_eval htyped hr hb), BinOp.result_result]
      exact ⟨rfl, hm₂⟩
  | unary op operand ty ih =>
    obtain ⟨hoperand, rfl⟩ := hexpr
    cases h with
    | load hevaluates hkept hread =>
      obtain ⟨a, ha, hload⟩ := Option.bind_eq_some_iff.mp hv
      obtain ⟨rfl, hm'⟩ := ih hoperand hm hvisits ha hevaluates
      rw [hkept.eq (Expr.low_eval htyped hoperand ha)] at hread
      exact ⟨hm'.load hload w hread, hm'⟩
    | addressOf hslot =>
      obtain ⟨slot, hslot', heq⟩ := hm.address hv
      cases hslot.symm.trans hslot'
      exact ⟨heq, hm⟩
    | unary haddr hderef hevaluates hkept =>
      obtain ⟨a, ha, rfl⟩ : ∃ a, operand.eval ctx = some a ∧ op.apply operand.ty a = v := by
        cases op with
        | addrOf => exact absurd rfl haddr
        | deref => exact absurd rfl hderef
        | neg => exact Option.map_eq_some_iff.mp hv
        | not => exact Option.map_eq_some_iff.mp hv
        | bitNot => exact Option.map_eq_some_iff.mp hv
      obtain ⟨rfl, hm'⟩ := ih hoperand hm hvisits ha hevaluates
      rw [hkept.eq (Expr.low_eval htyped hoperand ha)]
      exact ⟨rfl, hm'⟩
  | array elements ty ih => cases h
  | str text ty =>
    cases h
    cases hv
    exact ⟨congrFun hm.text text, hm⟩
  | empty ty => cases hv

end Scene

end ArmBackend
