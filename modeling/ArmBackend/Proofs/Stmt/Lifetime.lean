import ArmBackend.Program
import ArmBackend.Proofs.Expr.Landing
import ArmBackend.Proofs.Stmt.Woven

/-!
# How long variables live

The code of statements leaves alone every variable from before them that they do not assign to, in every
iteration of their loops. The code in front of a declaration does not, where a loop leads back to it:
its temporaries may share the slot.
-/

namespace ArmBackend

open ArmBackend.Frame (Named Writes)

variable {f g : Frame} {fs : List Frame} {σ τ : Session} {code : Code} {signature : Signature}

namespace Frame

/-- The place is that of the variable, and one of the names stands for it. -/
def Assigns (f : Frame) (names : List String) (slot : Slot) (offset : Int) (ty : Ty) : Prop :=
  (∃ name ∈ names, f.symbols.lookup name = some slot) ∧ slot.reservation.Occupies offset ty

theorem Writes.not_covers {names : List String} {offset : Int} {ty : Ty} {slot : Slot} {fp a : Word}
    (h : Writes f g names offset ty) (hassigns : ¬ f.Assigns names slot offset ty) (hnamed : f.Named)
    (hslot : slot ∈ f.locals) (hpeak : f.highWater ≤ g.highWater) (hlt : g.highWater < 2 ^ 64)
    (ha : slot.reservation.Covers fp a) : ¬ Reservation.Covers fp ⟨.slot offset, ty⟩ a := by
  intro hcovers
  obtain ⟨hsize, hle, hposition⟩ := hnamed.valid.stacked.bounds slot (mem_slots_of_local hslot)
  have hhigh := hnamed.valid.highWater
  obtain ⟨hlow, hup⟩ := (Slot.covers_iff hsize hle (by omega)).mp ha
  rcases h with ⟨hpos, habove, hbelow⟩ | ⟨name, hname, other, hlookup, hoccupies⟩
  · obtain ⟨n, rfl⟩ := Int.eq_ofNat_of_zero_le (show 0 ≤ offset by omega)
    have hother : (Slot.reservation ⟨n, ty⟩).Covers fp a := hcovers
    have hle' : ty.size ≤ n := by omega
    have hlt' : n < 2 ^ 64 := by omega
    have hlow' : n - ty.size < below fp a := ((Slot.covers_iff hpos hle' hlt').mp hother).1
    omega
  · cases hoccupies
    obtain ⟨before, after, hsymbols, -⟩ := List.lookup_eq_some_iff.mp hlookup
    have hmem : other ∈ f.locals := hnamed.live (name, other) (by simp [hsymbols])
    obtain ⟨hsize', hle', hposition'⟩ := hnamed.valid.stacked.bounds other (mem_slots_of_local hmem)
    have hother : other.reservation.Covers fp a := hcovers
    obtain ⟨hlow', hup'⟩ := (Slot.covers_iff hsize' hle' (by omega)).mp hother
    rcases hnamed.valid.stacked.disjoint (mem_slots_of_local hslot) (mem_slots_of_local hmem) with
      rfl | hlt | hlt
    · exact hassigns ⟨⟨name, hname, hlookup⟩, rfl⟩
    · omega
    · omega

end Frame

/-! ## Runs behind a variable -/

/-- A state of a function with `extent` bytes for its locals. -/
structure State.Framed (s : State) (extent : Nat) : Prop where
  aligned : s.StackAligned
  fits : extent + 64 < 2 ^ 64
  pointer : s.regs .stackPointer = s.regs .framePointer - .ofNat 64 extent

namespace Code.Trail

variable {stmts : List Stmt} {slot : Slot} {image : Image} {start extent : Nat} {s : State} {c d : Config}

theorem clear (h : Trail True f g stmts code) (hnamed : f.Named) (hslot : slot ∈ f.locals)
    (hs : s.Framed extent) (hextent : g.highWater ≤ extent) :
    Clear (slot.reservation.Covers (s.regs .framePointer)) True
      (fun offset ty => Writes f g (Stmt.blockAssigned stmts) offset ty ∧
        ¬ f.Assigns (Stmt.blockAssigned stmts) slot offset ty) s := by
  have hfits := hs.fits
  have hpeak := h.deepens.highWater
  obtain ⟨hbyte, hle, hposition⟩ := hnamed.valid.stacked.bounds slot (Frame.mem_slots_of_local hslot)
  have hhigh := hnamed.valid.highWater
  refine ⟨fun ⟨hw, hassigns⟩ a ha => hw.not_covers hassigns hnamed hslot hpeak (by omega) ha, fun _ a ha => ?_,
    fun _ => hs.aligned⟩
  obtain ⟨hlow, hup⟩ := (Slot.covers_iff hbyte hle (by omega)).mp ha
  rw [hs.pointer]
  simp only [below, BitVec.toNat_sub, BitVec.toNat_ofNat] at hlow hup ⊢
  omega

/-- In code along statements behind a variable, the variable changes in the stores of its own assignments
only. -/
theorem stride (h : Trail True f g stmts code) (hnamed : f.Named) (hslot : slot ∈ f.locals)
    (hat : image.At start code) (hs : s.Framed extent) (hextent : g.highWater ≤ extent)
    (hin : image.Amid (slot.reservation.Covers (s.regs .framePointer)) True
      (Writes f g (Stmt.blockAssigned stmts)) (f.Assigns (Stmt.blockAssigned stmts) slot) start code s c)
    (hne : c.pc ≠ start + code.length)
    (hstride : image.Stride (slot.reservation.Covers (s.regs .framePointer)) c d) :
    (image.Amid (slot.reservation.Covers (s.regs .framePointer)) True
        (Writes f g (Stmt.blockAssigned stmts)) (f.Assigns (Stmt.blockAssigned stmts) slot) start code s d ∨
      ∃ q, image.Left (slot.reservation.Covers (s.regs .framePointer)) True start code q d) ∧
    ((∀ a, slot.reservation.Covers (s.regs .framePointer) a → d.state.mem a = c.state.mem a) ∨
      code.StoresAt (f.Assigns (Stmt.blockAssigned stmts) slot) (c.pc - start)) := by
  refine hin.stride hat h.woven (h.clear hnamed hslot hs hextent) (fun {offset ty} hw => ?_) hne hstride
  by_cases hassigns : f.Assigns (Stmt.blockAssigned stmts) slot offset ty
  · exact Or.inr hassigns
  · exact Or.inl ⟨hw, hassigns⟩

theorem amid_or_left (h : Trail True f g stmts code) (hnamed : f.Named) (hslot : slot ∈ f.locals)
    (hat : image.At start code) (hs : s.Framed extent) (hextent : g.highWater ≤ extent)
    (hc : Relation.ReflTransGen
      (fun c d => (start ≤ c.pc ∧ c.pc < start + code.length) ∧
        image.Stride (slot.reservation.Covers (s.regs .framePointer)) c d) ⟨start, s⟩ c) :
    image.Amid (slot.reservation.Covers (s.regs .framePointer)) True
        (Writes f g (Stmt.blockAssigned stmts)) (f.Assigns (Stmt.blockAssigned stmts) slot) start code s c ∨
      ∃ q, image.Left (slot.reservation.Covers (s.regs .framePointer)) True start code q c := by
  induction hc with
  | refl => exact Or.inl ⟨s, .refl .., Or.inl ⟨[], [], code, rfl, rfl, h.woven, .refl ..⟩⟩
  | tail _ hstride ih =>
    obtain ⟨⟨hlow, hup⟩, hstride⟩ := hstride
    rcases ih with hin | ⟨q, hleft⟩
    · exact (h.stride hnamed hslot hat hs hextent hin (by omega) hstride).1
    · have := hleft.outside
      omega

end Code.Trail

namespace Stmt

/-- Statements that are lowered behind a variable and do not assign to it leave it as it is, until a branch
leaves their code. `Function.compile_spares` follows a variable up to the return of its function. -/
theorem lowerBlock_spares {stmts : List Stmt} (h : (lowerBlock signature stmts).run σ = (.ok code, τ))
    (hf : σ.frames = f :: fs) (hg : τ.frames = g :: fs) (hnamed : f.Named) {slot : Slot}
    (hslot : slot ∈ f.locals) (hnames : ∀ name ∈ blockAssigned stmts, f.symbols.lookup name ≠ some slot)
    {image : Image} {start extent : Nat} (hat : image.At start code) {s : State}
    (haligned : s.StackAligned) (hextent : g.highWater ≤ extent) (hsize : extent + 64 < 2 ^ 64)
    (hpointer : s.regs .stackPointer = s.regs .framePointer - .ofNat 64 extent) {c : Config}
    (hc : Relation.ReflTransGen
      (fun c d => (start ≤ c.pc ∧ c.pc < start + code.length) ∧
        image.Stride (slot.reservation.Covers (s.regs .framePointer)) c d) ⟨start, s⟩ c) :
    ∀ a, slot.reservation.Covers (s.regs .framePointer) a → c.state.mem a = s.mem a := by
  have htrail : Code.Trail True f g stmts code := lowerBlock_trail h hf hg hnamed fun _ => trivial
  have hs : s.Framed extent := ⟨haligned, hsize, hpointer⟩
  induction hc with
  | refl => exact fun _ _ => rfl
  | tail hbefore hstride ih =>
    obtain ⟨⟨hlow, hup⟩, hstride⟩ := hstride
    rcases htrail.amid_or_left hnamed hslot hat hs hextent hbefore with hin | ⟨q, hleft⟩
    · rcases (htrail.stride hnamed hslot hat hs hextent hin (by omega) hstride).2 with hkept | hstores
      · exact fun a ha => (hkept a ha).trans (ih a ha)
      · obtain ⟨_, _, _, _, _, _, ⟨⟨name, hname, hlookup⟩, -⟩, -⟩ := hstores
        exact absurd hlookup (hnames name hname)
    · have := hleft.outside
      omega

/-- Behind `int x`, the statement `int y = 1` leaves x alone. -/
theorem lowerBlock_spares_init :
    let slot : Slot := ⟨8, .int⟩
    let f : Frame := ⟨[slot], [], {}, [("x", slot)], 8, 8, [0], [], 0⟩
    let start : Session := { Session.start {} with frames := [f] }
    let s : State := ⟨fun reg => if reg = .framePointer then 4112 else 4096, fun _ => 0, Flags.compare 0 0⟩
    ∃ code τ, (lowerBlock ⟨.int, "main", []⟩ [.init .int "y" (.literal (.int 1) .int)]).run start =
        (.ok code, τ) ∧
      ∀ c, Relation.ReflTransGen (fun c d => (0 ≤ c.pc ∧ c.pc < 0 + code.length) ∧
        (Image.mk code fun _ => 0).Stride (slot.reservation.Covers (s.regs .framePointer)) c d) ⟨0, s⟩ c →
      ∀ a, slot.reservation.Covers (s.regs .framePointer) a → c.state.mem a = s.mem a := by
  intro slot f start s
  have hnamed : f.Named := by
    have hrun : (Frame.addVariable .int "x").run {} = (.ok slot, f) := rfl
    exact (Frame.addVariable_deepens hrun).named .empty
  obtain ⟨code, τ, hcode, htest⟩ := StepM.exists_of_any
    ((lowerBlock ⟨.int, "main", []⟩ [.init .int "y" (.literal (.int 1) .int)]).run start)
    (fun _ τ => (τ.frames.head?.any fun g => g.highWater ≤ 16) ∧ τ.frames.tail = [])
    (by decide +kernel)
  obtain ⟨hhead, htail⟩ := of_decide_eq_true htest
  obtain ⟨g, hg, hpeak⟩ := Option.any_eq_true _ _ |>.mp hhead
  have hframes : τ.frames = [g] := by
    rw [← List.cons_head?_tail hg, htail]
  refine ⟨code, τ, hcode, fun c hc => ?_⟩
  have hat : (Image.mk code fun _ => 0).At 0 code := List.prefix_rfl
  have hpointer : s.regs .stackPointer = s.regs .framePointer - .ofNat 64 16 := by decide
  exact lowerBlock_spares hcode rfl hframes hnamed List.mem_cons_self (List.forall_mem_nil _) hat (by decide)
    (of_decide_eq_true hpeak) (by decide) hpointer hc

/-- The loop stores through p, which points to i, in front of `int x = 5`. In the second iteration the
address of i is kept in the slot of x, and it is what the program returns for x. -/
theorem store_overwrites_local :
    let i : Expr := .var "i" .int
    let x : Slot := ⟨24, .int⟩
    let main : Function := ⟨⟨.int, "main", []⟩,
      [.init .int "i" (.literal (.int 0) .int),
        .init (.ptr .int) "p" (.unary .addrOf i (.ptr .int)),
        .loop (.binary (.compare .lt) i (.literal (.int 2) .int) .int)
          [.store (.var "p" (.ptr .int)) (.binary (.arith .add) i (.literal (.int 1) .int) .int),
            .ifElse (.binary (.compare .eq) i (.literal (.int 1) .int) .int)
              [.init .int "x" (.literal (.int 5) .int)] []],
        .ret (.var "x" .int)]⟩
    let s : State := ⟨fun _ => 4096, fun _ => 0, Flags.compare 0 0⟩
    ∃ code session entry written t,
      (Program.mk [] [main]).compile.run (Session.start {}) = (.ok code, session) ∧
      code.address? (.named "_main") = some entry ∧
      (Image.mk code fun _ => 0).Runs ⟨entry, s⟩ written ∧ written.state.read x.reservation = 5 ∧
      (Image.mk code fun _ => 0).Runs written ⟨4096, t⟩ ∧ t.regs .x0 = 4072 := by
  intro i x main s
  -- 37 steps lead behind the initialisation of x.
  obtain ⟨code, session, hcompile, htest⟩ := StepM.exists_of_any
    ((Program.mk [] [main]).compile.run (Session.start {}))
    (fun code _ => (code.address? (.named "_main")).any fun entry =>
      ((Image.mk code fun _ => 0).after 37 ⟨entry, s⟩).any fun written =>
        written.state.read x.reservation == 5 &&
          ((Image.mk code fun _ => 0).after 47 written).any fun c => c.pc = 4096 ∧ c.state.regs .x0 = 4072)
    (by decide +kernel)
  obtain ⟨entry, hentry, htest⟩ := Option.any_eq_true _ _ |>.mp htest
  obtain ⟨written, hwritten, htest⟩ := Option.any_eq_true _ _ |>.mp htest
  obtain ⟨hread, hafter⟩ := Bool.and_eq_true_iff.mp htest
  obtain ⟨⟨pc, t⟩, hlast, hresult⟩ := Option.any_eq_true _ _ |>.mp hafter
  obtain ⟨rfl, haddress⟩ := of_decide_eq_true hresult
  exact ⟨code, session, entry, written, t, hcompile, hentry, Image.runs_of_after hwritten,
    eq_of_beq hread, Image.runs_of_after hlast, haddress⟩

end Stmt

end ArmBackend
