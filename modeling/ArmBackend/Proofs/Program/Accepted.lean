import ArmBackend.Proofs.Function.Accepted
import ArmBackend.Proofs.Program.Progress

/-!
# Programs that are accepted

A unit of checked definitions compiles exactly if it is well-formed: the signatures of a name agree, no name
is defined twice, and every function is accepted.
-/

namespace ArmBackend

open StepM (succeeds_bind_iff succeeds_bind_left)

variable {table : List Signature} {functions : List Function} {σ τ : Session} {code : Code}

/-! ## Signatures that agree -/

namespace Signature

theorem sameTypes_iff {a b : Signature} :
    a.sameTypes b = true ↔
      a.name = b.name ∧ a.returnTy = b.returnTy ∧ a.params.map Param.ty = b.params.map Param.ty := by
  simp only [sameTypes, Bool.and_eq_true, beq_iff_eq, and_assoc]

theorem sameTypes_refl (a : Signature) : a.sameTypes a = true := sameTypes_iff.mpr ⟨rfl, rfl, rfl⟩

theorem sameTypes_symm {a b : Signature} (h : a.sameTypes b = true) : b.sameTypes a = true :=
  have ⟨hname, hreturn, hparams⟩ := sameTypes_iff.mp h
  sameTypes_iff.mpr ⟨hname.symm, hreturn.symm, hparams.symm⟩

theorem sameTypes_trans {a b c : Signature} (h : a.sameTypes b = true) (h' : b.sameTypes c = true) :
    a.sameTypes c = true :=
  have ⟨hname, hreturn, hparams⟩ := sameTypes_iff.mp h
  have ⟨hname', hreturn', hparams'⟩ := sameTypes_iff.mp h'
  sameTypes_iff.mpr ⟨hname.trans hname', hreturn.trans hreturn', hparams.trans hparams'⟩

def Agree (signatures : List Signature) : Prop :=
  ∀ a ∈ signatures, ∀ b ∈ signatures, a.name = b.name → a.sameTypes b = true

def Fits (signature : Signature) (table : List Signature) : Prop :=
  ∀ other ∈ table, other.name = signature.name → other.sameTypes signature = true

theorem agree_cons {signature : Signature} {signatures : List Signature} :
    Agree (signature :: signatures) ↔ signature.Fits signatures ∧ Agree signatures := by
  simp only [Agree, Fits, List.forall_mem_cons]
  constructor
  · rintro ⟨⟨-, -⟩, hall⟩
    exact ⟨fun other hother => (hall other hother).1, fun a ha => (hall a ha).2⟩
  · rintro ⟨hfits, hagree⟩
    exact ⟨⟨fun _ => signature.sameTypes_refl, fun other hother hname =>
      sameTypes_symm (hfits other hother hname.symm)⟩, fun a ha => ⟨hfits a ha, hagree a ha⟩⟩

theorem Agree.of_subset {signatures : List Signature} (h : Agree signatures)
    (hsub : ∀ signature ∈ table, signature ∈ signatures) : Agree table :=
  fun a ha b hb => h a (hsub a ha) b (hsub b hb)

end Signature

open Signature (Agree)

/-! ## Tables -/

namespace Session

theorem newest?_eq_some {name : String} {signature : Signature}
    (h : newest? table name = some signature) : signature ∈ table ∧ signature.name = name :=
  ⟨List.mem_of_find?_eq_some h, by simpa using List.find?_some h⟩

theorem conflicts_eq_false (hagree : Agree table) {signature : Signature} :
    conflicts table signature = false ↔ signature.Fits table := by
  rw [conflicts]
  cases hnewest : newest? table signature.name with
  | none =>
    refine iff_of_true rfl fun other hother hname => ?_
    have := newest?_isSome.mpr ⟨other, hother, hname⟩
    rw [hnewest] at this
    cases this
  | some newest =>
    obtain ⟨hmem, hname⟩ := newest?_eq_some hnewest
    rw [Option.any_some, Bool.not_eq_false']
    exact ⟨fun hsame other hother hother' => Signature.sameTypes_trans
      (hagree other hother newest hmem (hother'.trans hname.symm)) hsame, fun hfits => hfits _ hmem hname⟩

theorem declare_succeeds (signature : Signature) (hdefined : σ.defined = []) (hagree : Agree σ.declared) :
    (declare signature).Succeeds σ ↔ signature.Fits σ.declared := by
  rw [← conflicts_eq_false hagree]
  have hnone : conflicts σ.defined signature = false := by
    rw [hdefined]
    rfl
  cases hconflicts : conflicts σ.declared signature with
  | true =>
    refine iff_of_false (fun ⟨_, _, hrun⟩ => ?_) nofun
    simp only [declare, StepM.run_bind, StepM.run_get, hconflicts, Bool.true_or, if_true] at hrun
    cases hrun
  | false => exact iff_of_true (by simp [StepM.Succeeds, declare, hconflicts, hnone]) rfl

theorem declare_all_succeeds {signatures : List Signature} (hdefined : σ.defined = [])
    (hagree : Agree σ.declared) :
    (signatures.forM declare).Succeeds σ ↔ Agree (signatures.reverse ++ σ.declared) := by
  induction signatures generalizing σ with
  | nil => exact iff_of_true ⟨_, _, rfl⟩ hagree
  | cons signature signatures ih =>
    change (declare signature >>= fun _ => signatures.forM declare).Succeeds σ ↔ _
    rw [List.reverse_cons, List.append_assoc, List.singleton_append]
    have hcons : Agree (signatures.reverse ++ signature :: σ.declared) ↔
        signature.Fits σ.declared ∧ Agree (signatures.reverse ++ signature :: σ.declared) :=
      (and_iff_right_of_imp fun hall => (Signature.agree_cons.mp (hall.of_subset fun _ hmem =>
        List.mem_append_right _ hmem)).1).symm
    rw [hcons, ← declare_succeeds signature hdefined hagree]
    refine succeeds_bind_iff Iff.rfl fun _ σ₁ hrun => ?_
    have hfits := (declare_succeeds signature hdefined hagree).mp (.of_ok hrun)
    cases declare_adds hrun
    exact ih hdefined (Signature.agree_cons.mpr ⟨hfits, hagree⟩)

theorem define_succeeds (signature : Signature) (hagree : Agree σ.declared) :
    (define signature).Succeeds σ ↔
      signature.Fits σ.declared ∧ ∀ other ∈ σ.defined, other.name ≠ signature.name := by
  have hdefined : σ.isDefined signature.name = true ↔ ¬ ∀ other ∈ σ.defined, other.name ≠ signature.name := by
    rw [isDefined, newest?_isSome]
    simp
  rw [← conflicts_eq_false hagree]
  constructor
  · rintro ⟨_, τ, hrun⟩
    refine ⟨?_, (define_ok hrun).1⟩
    cases hconflicts : conflicts σ.declared signature with
    | false => rfl
    | true =>
      simp only [define, StepM.run_bind, StepM.run_get, hconflicts, if_true] at hrun
      cases hrun
  · rintro ⟨hconflicts, hnew⟩
    have hisDefined : σ.isDefined signature.name = false := by
      rw [← Bool.not_eq_true, hdefined]
      exact not_not_intro hnew
    simp [StepM.Succeeds, define, hconflicts, hisDefined]

theorem define_all_succeeds (hagree : Agree σ.declared) :
    (functions.forM fun function => define function.signature).Succeeds σ ↔
      (∀ function ∈ functions, function.signature.Fits σ.declared) ∧
        (functions.map Function.name).Nodup ∧
        ∀ function ∈ functions, ∀ other ∈ σ.defined, other.name ≠ function.name := by
  induction functions generalizing σ with
  | nil => exact iff_of_true ⟨_, _, rfl⟩ ⟨nofun, List.nodup_nil, nofun⟩
  | cons function functions ih =>
    have hnext : ∀ (u : Unit) (σ₁ : Session), (define function.signature).run σ = (.ok u, σ₁) →
        ((functions.forM fun function => define function.signature).Succeeds σ₁ ↔
          (∀ function ∈ functions, function.signature.Fits σ.declared) ∧
            (functions.map Function.name).Nodup ∧
            ∀ other ∈ functions, ∀ known ∈ function.signature :: σ.defined, known.name ≠ other.name) := by
      intro u σ₁ hrun
      obtain ⟨-, rfl⟩ := define_ok hrun
      exact ih hagree
    refine (succeeds_bind_iff (define_succeeds function.signature hagree) hnext).trans ?_
    simp only [List.forall_mem_cons, List.map_cons, List.nodup_cons, List.mem_map, not_exists, not_and]
    constructor
    · rintro ⟨⟨hfits, hnew⟩, hall, hnodup, hapart⟩
      exact ⟨⟨hfits, hall⟩, ⟨fun other hother hname => (hapart other hother).1 hname.symm, hnodup⟩,
        hnew, fun other hother => (hapart other hother).2⟩
    · rintro ⟨⟨hfits, hall⟩, ⟨hnot, hnodup⟩, hnew, hapart⟩
      exact ⟨⟨hfits, hnew⟩, hall, hnodup, fun other hother =>
        ⟨fun hname => hnot other hother hname.symm, hapart other hother⟩⟩

end Session

/-! ## Programs -/

namespace Program

def signatures (program : Program) : List Signature :=
  Builtin.all.map Builtin.signature ++ program.declarations ++ program.functions.map Function.signature

/-- What the compiler requires of a unit. -/
structure WellFormed (program : Program) : Prop where
  agree : Agree program.signatures
  unique : (program.functions.map Function.name).Nodup
  accepted : ∀ function ∈ program.functions, function.Accepted program.signatures

structure Proper (program : Program) : Prop where
  sized : ∀ signature ∈ program.declarations, signature.Sized
  functions : ∀ function ∈ program.functions, function.Proper program.signatures

theorem compileFunctions_succeeds {signatures : List Signature} (hknows : σ.Knows signatures)
    (hproper : ∀ function ∈ functions, function.Proper signatures) :
    (compileFunctions functions).Succeeds σ ↔ ∀ function ∈ functions, function.Accepted signatures := by
  induction functions generalizing σ with
  | nil => exact iff_of_true ⟨_, _, rfl⟩ nofun
  | cons function functions ih =>
    obtain ⟨hfirst, hrest⟩ := List.forall_mem_cons.mp hproper
    rw [List.forall_mem_cons]
    refine succeeds_bind_iff (Function.compile_succeeds hknows hfirst) fun code σ₁ hcode => ?_
    obtain ⟨hdeclared, hdefined⟩ := Function.compile_tables hcode
    rw [← ih (hknows.of_tables hdeclared hdefined) hrest]
    exact succeeds_bind_left fun _ _ _ => StepM.succeeds_pure _ _

theorem agree_signatures_iff (program : Program) (hunique : (program.functions.map Function.name).Nodup) :
    Agree program.signatures ↔
      Agree (program.declarations.reverse ++ Builtin.all.map Builtin.signature) ∧
        ∀ function ∈ program.functions,
          function.signature.Fits (program.declarations.reverse ++ Builtin.all.map Builtin.signature) := by
  have hmem : ∀ {signature : Signature}, signature ∈ program.signatures ↔
      signature ∈ program.declarations.reverse ++ Builtin.all.map Builtin.signature ∨
        ∃ function ∈ program.functions, function.signature = signature := by
    intro signature
    simp only [signatures, List.mem_append, List.mem_map, List.mem_reverse]
    exact or_congr_left or_comm
  constructor
  · intro hagree
    exact ⟨hagree.of_subset fun signature h => hmem.mpr (Or.inl h), fun function hfunction other hother =>
      hagree other (hmem.mpr (Or.inl hother)) function.signature (hmem.mpr (Or.inr ⟨_, hfunction, rfl⟩))⟩
  · rintro ⟨htable, hfits⟩ a ha b hb hname
    rcases hmem.mp ha with ha | ⟨f, hf, rfl⟩ <;> rcases hmem.mp hb with hb | ⟨g, hg, rfl⟩
    · exact htable a ha b hb hname
    · exact hfits g hg a ha hname
    · exact Signature.sameTypes_symm (hfits f hf b hb hname.symm)
    · rw [List.inj_on_of_nodup_map hunique hf hg hname]
      exact Signature.sameTypes_refl _

theorem knows_signatures {program : Program} (hproper : program.Proper)
    (hagree : Agree program.signatures)
    (hdeclared : σ.declared = program.declarations.reverse ++ Builtin.all.map Builtin.signature)
    (hdefined : σ.defined = (program.functions.map Function.signature).reverse) :
    σ.Knows program.signatures where
  sound := by
    intro name signature hfound
    rw [hdeclared, hdefined, Option.or_eq_some_iff] at hfound
    rcases hfound with hfound | ⟨-, hfound⟩
    · obtain ⟨hmem, hname⟩ := Session.newest?_eq_some hfound
      rw [List.mem_append, List.mem_reverse] at hmem
      simp only [signatures, List.mem_append]
      exact ⟨Or.inl hmem.symm, hname⟩
    · obtain ⟨hmem, hname⟩ := Session.newest?_eq_some hfound
      exact ⟨List.mem_append_right _ (List.mem_reverse.mp hmem), hname⟩
  complete := by
    intro signature hmem
    rw [← Option.isSome_iff_exists, Option.isSome_or, Bool.or_eq_true, Session.newest?_isSome,
      Session.newest?_isSome, hdeclared, hdefined]
    simp only [signatures, List.mem_append] at hmem
    simp only [List.mem_append, List.mem_reverse]
    exact hmem.imp (fun h => ⟨signature, h.symm, rfl⟩) fun h => ⟨signature, h, rfl⟩
  agree := hagree
  sized := by
    intro signature hmem
    simp only [signatures, List.mem_append, List.mem_map] at hmem
    rcases hmem with (⟨builtin, -, rfl⟩ | hdeclaration) | ⟨function, hfunction, rfl⟩
    · cases builtin
      exact ⟨by simp [Builtin.signature, Ty.storable, Ty.size, wordSize], nofun⟩
    · exact hproper.sized signature hdeclaration
    · exact (hproper.functions function hfunction).sized

/-- A unit of checked definitions compiles exactly if it is well-formed. -/
theorem compiles_iff {program : Program} (hproper : program.Proper) (options : Options) :
    (∃ text, program.assembly options = .ok text) ↔ program.WellFormed := by
  have hassembly : (∃ text, program.assembly options = .ok text) ↔
      program.compile.Succeeds (Session.start options) := by
    rw [assembly]
    rcases hrun : program.compile.run (Session.start options) with ⟨e | code, σ⟩
    · exact iff_of_false nofun fun ⟨_, _, h⟩ => nomatch hrun.symm.trans h
    · exact iff_of_true ⟨_, rfl⟩ ⟨_, _, hrun⟩
  have hbuiltins : Agree (Session.start options).declared := by
    rintro a ha b hb -
    simp only [Session.start, Builtin.all, List.map_cons, List.map_nil, List.mem_singleton] at ha hb
    rw [ha, hb]
    exact Signature.sameTypes_refl _
  have hcompile : program.compile.Succeeds (Session.start options) ↔
      Agree (program.declarations.reverse ++ (Session.start options).declared) ∧
        ((∀ function ∈ program.functions, function.signature.Fits
            (program.declarations.reverse ++ (Session.start options).declared)) ∧
          (program.functions.map Function.name).Nodup ∧
          ∀ function ∈ program.functions, ∀ other ∈ ([] : List Signature),
            other.name ≠ function.name) ∧
        ∀ function ∈ program.functions, function.Accepted program.signatures := by
    refine succeeds_bind_iff (Session.declare_all_succeeds rfl hbuiltins) fun _ σ₁ hdeclare => ?_
    have htable := (Session.declare_all_succeeds rfl hbuiltins).mp (.of_ok hdeclare)
    cases Session.declare_all_adds hdeclare
    refine succeeds_bind_iff (Session.define_all_succeeds htable) fun _ σ₂ hdefine => ?_
    obtain ⟨hfits, hunique, -⟩ := (Session.define_all_succeeds htable).mp (.of_ok hdefine)
    have hagree := (agree_signatures_iff program hunique).mpr ⟨htable, hfits⟩
    have htables := Session.define_all_adds hdefine
    have hknows : σ₂.Knows program.signatures :=
      knows_signatures hproper hagree (by rw [htables]; rfl) (by rw [htables]; exact List.append_nil _)
    rw [← compileFunctions_succeeds hknows hproper.functions]
    exact succeeds_bind_left fun _ _ _ => ⟨_, _, rfl⟩
  rw [hassembly, hcompile]
  constructor
  · rintro ⟨htable, ⟨hfits, hunique, -⟩, haccepted⟩
    exact ⟨(agree_signatures_iff program hunique).mpr ⟨htable, hfits⟩, hunique, haccepted⟩
  · rintro ⟨hagree, hunique, haccepted⟩
    obtain ⟨htable, hfits⟩ := (agree_signatures_iff program hunique).mp hagree
    exact ⟨htable, ⟨hfits, hunique, fun _ _ _ hother => absurd hother List.not_mem_nil⟩, haccepted⟩

/-- `int f(char c) { return c; }` and `int main() { while (f(1)) { int x = x; break; } return x; }`. The
loop closes no scope, and a variable is in scope in its own initialisation. -/
theorem compiles_iff_loop_scope :
    let x : Expr := Build.var "x" .int
    let f : Function := ⟨⟨.int, "f", [⟨.char, "c"⟩]⟩, [.ret (Build.var "c" .char)]⟩
    let main : Function := ⟨⟨.int, "main", []⟩,
      [.loop (Build.call "f" .int [Build.int 1]) [.init .int "x" x, .breakLoop], .ret x]⟩
    ∃ text, (⟨[], [f, main]⟩ : Program).assembly {} = .ok text := by
  intro x f main
  have hf : f.Proper (signatures ⟨[], [f, main]⟩) := by
    refine ⟨⟨by simp [f, Ty.storable, Ty.size], fun _ => rfl⟩, ?_, by simp [f, Stmt.AllProper, Stmt.Proper,
      Build.var, Expr.Proper]⟩
    rintro stmt hstmt
    rw [List.mem_singleton.mp hstmt]
    exact .ret (.var _ _)
  have hcall : (Build.call "f" .int [Build.int 1]).Built := .call _ _ (by simpa using .literal _)
  have hmain : main.Proper (signatures ⟨[], [f, main]⟩) := by
    refine ⟨⟨by simp [main], fun _ => rfl⟩, ?_, ?_⟩
    · have hinit : Build.init .int "x" x = .ok (.init .int "x" x) := rfl
      refine List.forall_mem_cons.mpr ⟨.loop hcall ?_ rfl, List.forall_mem_singleton.mpr (.ret (.var _ _))⟩
      exact List.forall_mem_cons.mpr ⟨.init (.var _ _) hinit, List.forall_mem_singleton.mpr .breakLoop⟩
    · simp [main, x, f, Stmt.AllProper, Stmt.Proper, Build.var, Build.call, Build.int, Build.literal,
        Expr.Proper, Expr.AllProper, signatures, Ty.storable, Ty.size, wordSize, trapCallee,
        Builtin.signature, Builtin.all]
  refine (compiles_iff ⟨by simp, List.forall_mem_cons.mpr ⟨hf, List.forall_mem_singleton.mpr hmain⟩⟩ {}).mpr
    ⟨?_, by decide, ?_⟩
  · rw [Agree]
    decide
  · simp [f, main, x, Function.Accepted, Stmt.BlockAccepted, Stmt.Accepted, Stmt.binds, Stmt.blockBinds,
      Build.var, Build.call, Build.int, Build.literal, Expr.Accepted, Expr.AllAccepted, Expr.Callable,
      Expr.Yields, Expr.isEmpty, Expr.ty, Literal.ty, Signature.Takes, signatures, trapCallee, Ty.isVoid,
      Ty.accepts, Ty.isInteger, Builtin.signature, Builtin.all, Register.argBank]

end Program

end ArmBackend
