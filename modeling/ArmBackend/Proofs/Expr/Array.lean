import ArmBackend.Proofs.Expr.Checked
import ArmBackend.Proofs.Expr.Isolated
import ArmBackend.Proofs.Frame.Rows

/-!
# Array literals

The elements of an array literal lie side by side in variables of their own, the first one lowest. An
element that is an array itself is the address of another such row.
-/

namespace ArmBackend

open Session (onFrame Advances onFrame_ok)
open ArmBackend.Frame (Grows)

/-! ## Rows of cells -/

theorem Slot.read_row {s : State} {ty : Ty} {first count i : Nat} (hi : i < count)
    (hle : count * ty.size ≤ first) :
    s.read (Slot.reservation ⟨first - i * ty.size, ty⟩) =
      s.load ty.width (s.regs .framePointer - .ofNat 64 first + .ofNat 64 (i * ty.size)) := by
  have hi' := Nat.mul_le_mul_right ty.size (Nat.le_of_lt hi)
  have hsplit : BitVec.ofNat 64 first =
      BitVec.ofNat 64 (first - i * ty.size) + BitVec.ofNat 64 (i * ty.size) := by
    rw [← BitVec.ofNat_add, Nat.sub_add_cancel (Nat.le_trans hi' hle)]
  have haddress : s.regs .framePointer - .ofNat 64 first + .ofNat 64 (i * ty.size) =
      s.regs .framePointer - BitVec.ofNat 64 (first - i * ty.size) := by
    rw [hsplit]
    grind
  rw [haddress, ← Slot.eval_offset ⟨first - i * ty.size, ty⟩]
  rfl

theorem Frame.Rows.reserves {ty : Ty} {count : Nat} {f g : Frame} (h : Rows ty count f g)
    (hsize : 0 < ty.size) (hfg : f.Within g) {slot : Slot}
    (hslot : slot ∈ Slot.row ty g.position count) : Reserves f slot.ty slot.reservation g := by
  obtain ⟨rfl, hle, hposition⟩ := h.bounds hslot
  refine ⟨rfl, ⟨slot.offset, rfl, hsize, ?_, hposition⟩, hfg, nofun, ?_⟩
  · exact Nat.le_trans (Nat.le_add_left _ _) hle
  · rintro offset heq
    cases heq
    change (f.position + slot.ty.size : Int) ≤ slot.offset
    omega

theorem Lower.reserveElements_rows {ty : Ty} {count : Nat} {slots slots' : List Slot} {σ τ : Session}
    {f : Frame} {fs : List Frame} (hf : σ.frames = f :: fs)
    (h : (reserveElements ty count slots).run σ = (.ok slots', τ)) :
    ∃ g, τ.frames = g :: fs ∧ Frame.Rows ty count f g ∧
      slots' = Slot.row ty g.position count ++ slots := by
  induction count generalizing slots σ f with
  | zero =>
    cases h
    exact ⟨f, hf, ⟨rfl, by simp, nofun, fun _ => by simp⟩, rfl⟩
  | succ count ih =>
    obtain ⟨slot, σ₁, hslot, h₁⟩ := StepM.run_bind_eq_ok.mp h
    obtain ⟨f₁, hf₁, hrun⟩ := (onFrame_ok hslot).1.frames hf
    obtain ⟨g, hg, hrows, rfl⟩ := ih hf₁ h₁
    obtain ⟨hrows', hrow⟩ := hrows.succ hrun
    refine ⟨g, hg, hrows', ?_⟩
    rw [hrow, List.append_assoc]
    rfl

/-! ## Targets -/

theorem Frame.Offers.of_grows {f g : Frame} {target : Reservation} (h : f.Offers target)
    (hfg : Grows f g) : g.Offers target := by
  rcases h with hreg | htemp | ⟨slot, hslot, heq⟩
  · exact Or.inl hreg
  · exact Or.inr (Or.inl (hfg.temporaries ▸ htemp))
  · exact Or.inr (Or.inr ⟨slot, hfg.locals.subset hslot, heq⟩)

theorem Frame.Offers.ne_of_beyond {f : Frame} (hf : Valid f) {target : Reservation}
    (h : f.Offers target) {slot : Slot} (hslot : f.position < slot.offset) :
    slot.reservation ≠ target := by
  rintro rfl
  rcases h.cases hf with ⟨reg, hreg, -⟩ | ⟨other, hother, heq⟩
  · cases hreg
  · obtain rfl : slot = other := by simpa using congrArg Reservation.slot? heq
    have := (hf.stacked.bounds slot hother).2.2
    omega

/-! ## What a literal leaves in memory -/

namespace Expr

mutual

def leaves : Expr → List Expr
  | .array elements _ => allLeaves elements
  | expr => [expr]

def allLeaves : List Expr → List Expr
  | [] => []
  | expr :: exprs => expr.leaves ++ allLeaves exprs

end

theorem mem_allLeaves {leaf : Expr} {exprs : List Expr} :
    leaf ∈ allLeaves exprs ↔ ∃ expr ∈ exprs, leaf ∈ expr.leaves := by
  induction exprs with
  | nil => simp [allLeaves]
  | cons expr exprs ih => simp [allLeaves, ih]

theorem arrayFree_of_eval {ctx : Context} {expr : Expr} {v : Word} (h : expr.eval ctx = some v) :
    expr.arrayFree = true := by
  induction expr using Expr.induct generalizing v with
  | array elements ty ih => cases h
  | deref pointer ty ih =>
    obtain ⟨a, ha, -⟩ := Option.bind_eq_some_iff.mp h
    exact ih ha
  | call callee args ty ih =>
    rw [eval] at h
    split at h
    · cases h
    · obtain ⟨values, hvalues, -⟩ := Option.bind_eq_some_iff.mp h
      have hall := evalAll_eq_some hvalues
      clear h hvalues
      rw [arrayFree, allArrayFree_eq_true]
      induction hall with
      | nil => exact fun _ hmem => absurd hmem List.not_mem_nil
      | cons hv _ ih' =>
        obtain ⟨ihhead, ihtail⟩ := List.forall_mem_cons.mp ih
        exact List.forall_mem_cons.mpr ⟨ihhead hv, ih' ihtail⟩
  | binary op lhs rhs ty ihl ihr =>
    obtain ⟨a, ha, hmap⟩ := Option.bind_eq_some_iff.mp h
    obtain ⟨b, hb, -⟩ := Option.map_eq_some_iff.mp hmap
    rw [arrayFree, ihl ha, ihr hb, Bool.and_self]
  | unary op operand ty ih =>
    cases op with
    | addrOf => cases operand <;> first | rfl | cases h
    | deref =>
      obtain ⟨a, ha, -⟩ := Option.bind_eq_some_iff.mp h
      exact ih ha
    | neg | not | bitNot =>
      obtain ⟨a, ha, -⟩ := Option.map_eq_some_iff.mp h
      exact ih ha
  | _ => rfl

/-- What an expression has left in memory, with the slots that it has taken, newest first: a value or
the address of a row of cells that hold the values of the elements. -/
inductive Lies (ctx : Context) (t : State) : Expr → Word → List Slot → Prop
  | value {expr : Expr} {v : Word} (h : expr.eval ctx = some v) : Lies ctx t expr v []
  | array {elements : List Expr} {ty : Ty} {first : Nat} {parts : List (Word × List Slot)}
      (elements_lie : List.Forall₂ (fun element part => Lies ctx t element part.1 part.2) elements parts)
      (room : elements.length * ty.size ≤ first)
      (cells : ∀ i part, parts[i]? = some part →
        t.load ty.width (t.regs .framePointer - .ofNat 64 first + .ofNat 64 (i * ty.size)) =
          ty.width.low part.1) :
      Lies ctx t (.array elements (.ptr ty)) (t.regs .framePointer - .ofNat 64 first)
        (parts.reverse.flatMap Prod.snd ++ Slot.row ty first elements.length)

theorem Lies.mono {ctx : Context} {t u : State} {expr : Expr} {b : Word} {slots : List Slot}
    (h : Lies ctx t expr b slots) (hfp : u.regs .framePointer = t.regs .framePointer)
    (hread : ∀ slot ∈ slots, u.read slot.reservation = t.read slot.reservation) :
    Lies ctx u expr b slots := by
  induction expr using Expr.induct generalizing b slots with
  | array elements ty ih =>
    cases h with
    | value hv => exact .value hv
    | @array _ ty first parts hparts hroom hcells =>
      obtain ⟨hinner, hrow⟩ := List.forall_mem_append.mp hread
      obtain ⟨hlength, hzip⟩ := List.forall₂_iff_zip.mp hparts
      rw [← hfp]
      refine .array (List.forall₂_iff_zip.mpr ⟨hlength, fun {element part} hmem => ?_⟩) hroom ?_
      · obtain ⟨helement, hpart⟩ := List.of_mem_zip hmem
        refine ih element helement (hzip hmem) fun slot hslot => hinner slot ?_
        exact List.mem_flatMap.mpr ⟨part, List.mem_reverse.mpr hpart, hslot⟩
      · intro i part hpart
        have hi : i < elements.length := by
          rw [hlength]
          exact (List.getElem?_eq_some_iff.mp hpart).1
        have hslot := hrow _ (Slot.mem_row.mpr ⟨i, hi, rfl⟩)
        rw [Slot.read_row hi hroom, Slot.read_row hi hroom] at hslot
        exact hslot.trans (hcells i part hpart)
  | _ =>
    cases h with
    | value hv => exact .value hv

end Expr

/-! ## Lowering literals -/

namespace Setting

variable {S : Setting} {symbol : Label → Word}

structure Laid (S : Setting) (f g : Frame) (expr : Expr) (target : Reservation) (b : Word)
    (slots : List Slot) (s t : State) : Prop where
  lies : expr.Lies S.ctx t b slots
  lands : Lands f false S.bound target b s t
  locals : g.locals = slots ++ f.locals
  beyond : ∀ slot ∈ slots, f.position < slot.offset ∧ slot.ty.size ∣ slot.offset

def Lays (S : Setting) (symbol : Label → Word) (expr : Expr) : Prop :=
  ∀ ⦃target σ τ code f g fs s⦄, (expr.lower target).run σ = (.ok code, τ) → σ.frames = f :: fs →
    τ.frames = g :: fs → S.After τ → Frame.Valid f → f.Offers target → expr.Admits f target →
    S.Before f false s →
    ∃ t b slots, code.exec symbol s = some t ∧ S.Laid f g expr target b slots s t

theorem lays_value (hworld : S.world = Code.alone symbol) {expr : Expr} (htyped : expr.WellTyped)
    (hcalls : expr.containsCalls = false) {v : Word} (hv : expr.eval S.ctx = some v) :
    S.Lays symbol expr := by
  intro target σ τ code f g fs s h hf hg hafter hvalid htarget hadmits hbefore
  have hfree := Expr.arrayFree_of_eval hv
  obtain ⟨g', hg', hrest⟩ := (Expr.lower_rests hfree h).frames hf
  cases hg.symm.trans hg'
  rw [← hcalls] at hbefore
  have hens := evaluates expr hfree htyped hv h hf hafter (htarget.fits hvalid) hadmits hbefore
  rw [hworld, hcalls] at hens
  obtain ⟨t, hexec, hlands⟩ := Code.exec_of_ensures hens
  exact ⟨t, v, [], hexec, .value hv, hlands, hrest.locals, nofun⟩

theorem admits_cell {f₀ f : Frame} {ty : Ty} {res : Reservation} (hres : Reserves f₀ ty res f)
    {s : State} (hagrees : S.ctx.Agrees f₀ S.bound s) {element : Expr}
    (hleaves : ∀ leaf ∈ element.leaves, ∃ v, leaf.eval S.ctx = some v) : element.Admits f res := by
  cases element with
  | array elements ty => trivial
  | _ =>
    obtain ⟨v, hv⟩ := hleaves _ (List.mem_singleton.mpr rfl)
    exact hres.admits hagrees hv

/-- The outcome of evaluating elements into the cells that `f` has reserved for them and `f₀` has
not. -/
structure Filled (S : Setting) (f₀ f g : Frame) (elements : List Expr) (cells : List Slot)
    (parts : List (Word × List Slot)) (s t : State) : Prop where
  lie : List.Forall₂ (fun element part => element.Lies S.ctx t part.1 part.2) elements parts
  hold : List.Forall₂ (fun cell part => t.read cell.reservation = cell.ty.width.low part.1) cells parts
  only : ChangesOnly (f₀.Clobbers false) (Scratch (s.regs .framePointer) f₀.position S.bound) s t
  kept : ∀ slot ∈ f.locals, slot ∉ cells → t.read slot.reservation = s.read slot.reservation
  locals : g.locals = parts.reverse.flatMap Prod.snd ++ f.locals
  beyond : ∀ slot ∈ parts.reverse.flatMap Prod.snd,
    f.position < slot.offset ∧ slot.ty.size ∣ slot.offset

theorem Filled.cons {f₀ f f₁ g : Frame} {element : Expr} {elements : List Expr} {cell : Slot}
    {cells inner : List Slot} {parts : List (Word × List Slot)} {b : Word} {s t u : State}
    (hlaid : S.Laid f f₁ element cell.reservation b inner s t) (hgrows : Grows f f₁)
    (hvalid : Frame.Valid f) (hlt : f.position < 2 ^ 64) (hcell : cell ∈ f.locals)
    (hcells : ∀ other ∈ cells, other ∈ f.locals) (hnot : cell ∉ cells)
    (honly : ChangesOnly (f₀.Clobbers false) (Scratch (s.regs .framePointer) f₀.position S.bound) s t)
    (hfilled : S.Filled f₀ f₁ g elements cells parts t u) :
    S.Filled f₀ f g (element :: elements) (cell :: cells) ((b, inner) :: parts) s u := by
  have hinner : ∀ slot ∈ inner, slot ∉ cells := fun slot hslot hmem => by
    have hbounds := hvalid.stacked.bounds slot (Frame.mem_slots_of_local (hcells slot hmem))
    exact absurd (hlaid.beyond slot hslot).1 (by omega)
  have hparts : ((b, inner) :: parts).reverse.flatMap Prod.snd =
      parts.reverse.flatMap Prod.snd ++ inner := by simp
  refine ⟨.cons ?_ hfilled.lie, .cons ?_ hfilled.hold, ?_, fun slot hslot hother => ?_, ?_, ?_⟩
  · have hfp := hfilled.only.reg _ (Frame.not_clobbers_framePointer f₀ false)
    refine hlaid.lies.mono hfp fun slot hslot => hfilled.kept slot ?_ (hinner slot hslot)
    rw [hlaid.locals]
    exact List.mem_append_left _ hslot
  · exact (hfilled.kept cell (hgrows.locals.subset hcell) hnot).trans hlaid.lands.read
  · have honly' := hfilled.only
    rw [honly.reg _ (Frame.not_clobbers_framePointer f₀ false)] at honly'
    exact honly.trans honly'
  · obtain ⟨hne, hother'⟩ := not_or.mp (List.mem_cons.not.mp hother)
    have htarget : f.Offers cell.reservation := Or.inr (Or.inr ⟨cell, hcell, rfl⟩)
    refine (hfilled.kept slot (hgrows.locals.subset hslot) hother').trans ?_
    refine Frame.Lands.read_slot hvalid htarget hlt hlaid.lands (Frame.mem_slots_of_local hslot)
      fun heq => hne ?_
    simpa using congrArg Reservation.slot? heq
  · rw [hfilled.locals, hlaid.locals, hparts, List.append_assoc]
  · rw [hparts]
    refine List.forall_mem_append.mpr ⟨fun slot hslot => ?_, hlaid.beyond⟩
    have := hfilled.beyond slot hslot
    exact ⟨Nat.lt_of_le_of_lt hgrows.position this.1, this.2⟩

theorem fills_elements {f₀ : Frame} {elements : List Expr}
    (hlays : ∀ element ∈ elements, S.Lays symbol element)
    (hleaves : ∀ leaf ∈ Expr.allLeaves elements, ∃ v, leaf.eval S.ctx = some v) {cells : List Slot}
    (hlength : cells.length = elements.length) (hnodup : cells.Nodup) {σ τ : Session} {f g : Frame}
    {fs : List Frame} {code : Code} {s : State}
    (h : (Lower.elements cells (elements.map Expr.operand)).run σ = (.ok code, τ))
    (hf : σ.frames = f :: fs) (hg : τ.frames = g :: fs) (hafter : S.After τ) (hvalid : Frame.Valid f)
    (hcells : ∀ cell ∈ cells, cell ∈ f.locals ∧ Reserves f₀ cell.ty cell.reservation f)
    (hwithin : f₀.Within f) (hbefore : S.Before f₀ false s) :
    ∃ t parts, code.exec symbol s = some t ∧ S.Filled f₀ f g elements cells parts s t := by
  induction elements generalizing cells σ f code s with
  | nil =>
    obtain rfl := List.eq_nil_of_length_eq_zero hlength
    cases h
    cases hg.symm.trans hf
    exact ⟨s, [], rfl, .nil, .nil, .refl _ _ s, fun _ _ _ => rfl, rfl, nofun⟩
  | cons element elements ih =>
    cases cells with
    | nil => cases hlength
    | cons cell cells =>
      obtain ⟨elementCode, σ₁, helement, h₁⟩ := StepM.run_bind_eq_ok.mp h
      obtain ⟨restCode, σ₂, hrest, h₂⟩ := StepM.run_bind_eq_ok.mp h₁
      cases h₂
      obtain ⟨hcell, hcells'⟩ := List.forall_mem_cons.mp hcells
      obtain ⟨hnot, hnodup'⟩ := List.nodup_cons.mp hnodup
      have hleaves' : (∀ leaf ∈ element.leaves, ∃ v, leaf.eval S.ctx = some v) ∧
          ∀ leaf ∈ Expr.allLeaves elements, ∃ v, leaf.eval S.ctx = some v :=
        List.forall_mem_append.mp hleaves
      have hkeeps : ∀ operand ∈ elements.map Expr.operand, operand.Keeps Grows :=
        List.forall_mem_map.mpr fun other _ => other.operand_grows
      obtain ⟨f₁, hf₁, hgrows⟩ := (Expr.lower_grows helement).frames hf
      have hafter₁ : S.After σ₁ :=
        hafter.of_advances (Lower.elements_advances Frame.growth_grows hkeeps hrest) Grows.highWater
      have hvalid₁ := hgrows.valid hvalid
      have hextent := S.extent_le
      have hlt := S.bound_lt
      have hposition : f.position ≤ S.extent :=
        Nat.le_trans hgrows.position (Nat.le_trans hvalid₁.highWater (hafter₁.peak hf₁))
      have hbefore_f : S.Before f false s :=
        hbefore.of_only hwithin hposition id id id (.refl (fun _ => False) _ s)
      obtain ⟨t, b, inner, hexec, hlaid⟩ := hlays element List.mem_cons_self helement hf hf₁ hafter₁
        hvalid (Or.inr (Or.inr ⟨cell, hcell.1, rfl⟩)) (admits_cell hcell.2 hbefore.agrees hleaves'.1)
        hbefore_f
      -- What the element has changed was free before the cells were reserved.
      have honly := hcell.2.only (Nat.le_trans hposition hextent) hlt hlaid.lands
      have hbefore₁ : S.Before f₀ false t := hbefore.of_only (.refl f₀) hbefore.position id
        (Frame.not_clobbers_framePointer f₀ false) (Frame.not_clobbers_stackPointer f₀ false) honly
      have hcells₁ : ∀ cell ∈ cells, cell ∈ f₁.locals ∧ Reserves f₀ cell.ty cell.reservation f₁ :=
        fun other hother => ⟨hgrows.locals.subset (hcells' other hother).1,
          (hcells' other hother).2.mono (.refl f₀) hgrows.within⟩
      obtain ⟨u, parts, hexec', hfilled⟩ :=
        ih (fun other hother => hlays other (List.mem_cons_of_mem _ hother)) hleaves'.2
          (Nat.succ.inj hlength) hnodup' hrest hf₁ hvalid₁ hcells₁ (hwithin.trans hgrows.within) hbefore₁
      refine ⟨u, (b, inner) :: parts, ?_, hfilled.cons hlaid hgrows hvalid (by omega) hcell.1
        (fun other hother => (hcells' other hother).1) hnot honly⟩
      rw [Code.exec_append, hexec, Option.bind_some, hexec']

theorem Filled.lies {f₀ f g : Frame} {elements : List Expr} {ty : Ty} {first : Nat}
    {parts : List (Word × List Slot)} {s t : State}
    (h : S.Filled f₀ f g elements (Slot.row ty first elements.length) parts s t)
    (hroom : elements.length * ty.size ≤ first) :
    (Expr.array elements (.ptr ty)).Lies S.ctx t (t.regs .framePointer - .ofNat 64 first)
      (parts.reverse.flatMap Prod.snd ++ Slot.row ty first elements.length) := by
  refine .array h.lie hroom fun i part hpart => ?_
  obtain ⟨hi, rfl⟩ := List.getElem?_eq_some_iff.mp hpart
  have hlength : elements.length = parts.length := h.lie.length_eq
  have hhold := h.hold.get (i := i) (by rw [Slot.length_row]; omega) hi
  simp only [Slot.row, List.get_eq_getElem, List.getElem_map, List.getElem_range] at hhold
  rwa [Slot.read_row (by omega) hroom] at hhold

theorem Filled.laid {f f₁ g : Frame} {elements : List Expr} {ty : Ty} {target : Reservation}
    {parts : List (Word × List Slot)} {s t u : State} (hvalid : Frame.Valid f) (hgrows : Grows f g)
    (hgrows₁ : Grows f f₁) (hlt : g.position < 2 ^ 64) (htarget : f.Offers target)
    (hrows : Frame.Rows ty elements.length f f₁) (hsize : 0 < ty.size)
    (hfilled : S.Filled f f₁ g elements (Slot.row ty f₁.position elements.length) parts s t)
    (hlands : Lands g false S.bound target (t.regs .framePointer - .ofNat 64 f₁.position) t u) :
    S.Laid f g (.array elements (.ptr ty)) target (t.regs .framePointer - .ofNat 64 f₁.position)
      (parts.reverse.flatMap Prod.snd ++ Slot.row ty f₁.position elements.length) s u := by
  have hvalid' := hgrows.valid hvalid
  have htarget' := htarget.of_grows hgrows
  have hlocals : g.locals =
      parts.reverse.flatMap Prod.snd ++ Slot.row ty f₁.position elements.length ++ f.locals := by
    rw [hfilled.locals, hrows.locals, List.append_assoc]
  have hbeyond : ∀ slot ∈ parts.reverse.flatMap Prod.snd ++ Slot.row ty f₁.position elements.length,
      f.position < slot.offset ∧ slot.ty.size ∣ slot.offset := by
    refine List.forall_mem_append.mpr ⟨fun slot hslot => ?_, fun slot hslot => ?_⟩
    · have := hfilled.beyond slot hslot
      exact ⟨Nat.lt_of_le_of_lt hgrows₁.position this.1, this.2⟩
    · have := hrows.bounds hslot
      exact ⟨by omega, hrows.aligned hslot⟩
  have hfp : t.regs .framePointer = s.regs .framePointer :=
    hfilled.only.reg _ (Frame.not_clobbers_framePointer f false)
  refine ⟨(hfilled.lies hrows.room).mono ?_ fun slot hslot => ?_, ⟨hlands.read, ?_⟩, hlocals, hbeyond⟩
  · exact (Frame.Lands.pointers hvalid' htarget' hlands).2
  · refine Frame.Lands.read_slot hvalid' htarget' hlt hlands (Frame.mem_slots_of_local ?_)
      (htarget.ne_of_beyond hvalid (hbeyond slot hslot).1)
    rw [hlocals]
    exact List.mem_append_left _ hslot
  · have honly := hlands.only
    rw [hfp] at honly
    exact (hfilled.only.mono (fun _ => Or.inr) fun _ => Or.inr).trans
      (honly.mono (fun _ hreg => hreg.imp_right hgrows.within.clobbers)
        fun _ hmem => hmem.imp_right fun hfree => hfree.mono hgrows.position (Nat.le_refl _))

/-- The elements fill the row that is reserved for them, and the address of its first cell goes to the
target. -/
theorem lays_array (hworld : S.world = Code.alone symbol) {elements : List Expr} {ty : Ty}
    (hlays : ∀ element ∈ elements, S.Lays symbol element)
    (hleaves : ∀ leaf ∈ Expr.allLeaves elements, ∃ v, leaf.eval S.ctx = some v) :
    S.Lays symbol (.array elements ty) := by
  intro target σ τ code f g fs s h hf hg hafter hvalid htarget _ hbefore
  obtain ⟨g', hg', hgrows⟩ := (Expr.lower_grows h).frames hf
  cases hg.symm.trans hg'
  obtain ⟨elementTy, first, slots, elementsCode, addressCode, σ₁, hty, hslots, hcode, haddress, rfl⟩ :=
    Lower.array_ok h
  obtain rfl := Build.eq_ptr_of_pointee? hty
  rw [Expr.operands_eq_map] at hslots hcode
  rw [List.length_map] at hslots
  obtain ⟨f₁, hf₁, hrows, hrow⟩ := Lower.reserveElements_rows hf hslots
  obtain ⟨f₁', hf₁', hgrows₁⟩ :=
    (Lower.reserveElements_advances Frame.growth_grows Frame.reserveVariable_grows hslots).frames hf
  cases hf₁.symm.trans hf₁'
  have hvalid₁ := hgrows₁.valid hvalid
  rw [List.append_nil] at hrow
  rw [hrow] at hcode
  have hmem : ∀ cell ∈ Slot.row elementTy f₁.position elements.length, cell ∈ f₁.locals :=
    fun cell hcell => hrows.locals ▸ List.mem_append_left _ hcell
  have hfirst : first ∈ Slot.row elementTy f₁.position elements.length := hrow ▸ List.mem_cons_self
  have hsize : 0 < elementTy.size := by
    rw [← (hrows.bounds hfirst).1]
    exact (hvalid₁.stacked.bounds first (Frame.mem_slots_of_local (hmem first hfirst))).1
  obtain ⟨t, parts, hexec, hfilled⟩ := fills_elements hlays hleaves (Slot.length_row _ _ _)
    (Slot.nodup_row hsize hrows.room) hcode hf₁ hg hafter hvalid₁
    (fun cell hcell => ⟨hmem cell hcell, hrows.reserves hsize hgrows₁.within hcell⟩) hgrows₁.within hbefore
  have hoffset : first.offset = f₁.position := by
    cases hlength : elements.length with
    | zero => simp [hlength, Slot.row] at hfirst
    | succ count =>
      have hhead := congrArg List.head? hrow
      rw [hlength, Slot.head?_row] at hhead
      rw [Option.some.inj hhead]
  have hens := ensures_address (S := S) (s := t) (f := g) haddress
    ((htarget.of_grows hgrows).fits (hgrows.valid hvalid))
    (a := t.regs .framePointer - .ofNat 64 f₁.position)
    (fun reg hreg Q => by rw [Code.ensures_frameAddress hreg, Slot.eval_offset, hoffset]) false
  rw [hworld] at hens
  obtain ⟨u, hexec', hlands⟩ := Code.exec_of_ensures hens
  have hlt : g.position < 2 ^ 64 := by
    have := S.bound_lt
    have := S.extent_le
    have := (hgrows.valid hvalid).highWater
    have := hafter.peak hg
    omega
  refine ⟨u, _, _, ?_, hfilled.laid hvalid hgrows hgrows₁ hlt htarget hrows hsize hlands⟩
  rw [Code.exec_append, hexec, Option.bind_some, hexec']

theorem lays (hworld : S.world = Code.alone symbol) (expr : Expr) (htyped : expr.WellTyped)
    (hcalls : expr.containsCalls = false)
    (hleaves : ∀ leaf ∈ expr.leaves, ∃ v, leaf.eval S.ctx = some v) : S.Lays symbol expr := by
  induction expr using Expr.induct with
  | array elements ty ih =>
    refine lays_array hworld (fun element helement => ih element helement ?_ ?_ ?_) hleaves
    · exact Expr.allWellTyped_iff.mp htyped.1 element helement
    · exact Expr.anyContainsCalls_eq_false.mp hcalls element helement
    · exact fun leaf hleaf => hleaves leaf (Expr.mem_allLeaves.mpr ⟨element, helement, hleaf⟩)
  | _ =>
    obtain ⟨v, hv⟩ := hleaves _ (List.mem_singleton.mpr rfl)
    exact lays_value hworld htyped hcalls hv

end Setting

/-! ## Array literals -/

namespace Slot

def Apart (fp : Word) (a b : Slot) : Prop :=
  ∀ byte, ¬ (a.reservation.Covers fp byte ∧ b.reservation.Covers fp byte)

theorem aligned_address {slot : Slot} {fp : Word} (hsize : 0 < slot.ty.size)
    (hdvd : slot.ty.size ∣ slot.offset) (hfp : 16 ∣ fp.toNat) :
    slot.ty.size ∣ (fp - BitVec.ofNat 64 slot.offset).toNat := by
  have hsizes : slot.ty.size = 1 ∨ slot.ty.size = 8 := by
    cases hty : slot.ty <;> simp_all [Ty.size, wordSize]
  rw [BitVec.toNat_sub, BitVec.toNat_ofNat]
  rcases hsizes with hone | height
  · rw [hone]
    exact Nat.one_dvd _
  · rw [height] at hdvd ⊢
    omega

end Slot

theorem Frame.Valid.apart {f : Frame} (hf : Valid f) (hlt : f.position < 2 ^ 64) (fp : Word) :
    f.locals.Pairwise (Slot.Apart fp) := by
  have hsublist : List.Sublist f.locals f.slots := List.sublist_append_right _ _
  refine (hf.stacked.pairwise.sublist hsublist).imp_of_mem fun {newer older} hnewer holder hle => ?_
  obtain ⟨hsize, hle₁, hposition⟩ := hf.stacked.bounds newer (mem_slots_of_local hnewer)
  obtain ⟨hsize', hle', hposition'⟩ := hf.stacked.bounds older (mem_slots_of_local holder)
  rintro byte ⟨hcovers, hcovers'⟩
  have h₁ := (Slot.covers_iff hsize hle₁ (by omega)).mp hcovers
  have h₂ := (Slot.covers_iff hsize' hle' (by omega)).mp hcovers'
  omega

/-- The outcome of an array literal. The slots are those of all the literals in it, newest first. -/
structure Expr.LaidOut (ctx : Context) (f g : Frame) (literal : Expr) (target : Reservation)
    (b : Word) (slots : List Slot) (s t : State) : Prop where
  /-- The target holds the address of the first cell. -/
  address : t.read target = target.keep b
  lies : literal.Lies ctx t b slots
  locals : g.locals = slots ++ f.locals
  apart : (slots ++ f.locals).Pairwise (Slot.Apart (s.regs .framePointer))
  aligned : 16 ∣ (s.regs .framePointer).toNat → ∀ slot ∈ slots,
    slot.ty.size ∣ (s.regs .framePointer - BitVec.ofNat 64 slot.offset).toNat
  untouched : f.Untouched g.highWater target s t

/-- The code of an array literal runs to its end. It leaves the values of the elements side by side in
new variables, and the address of the first one in the target. -/
theorem Expr.exec_array {elements : List Expr} {ty : Ty} (hbuilt : (Expr.array elements ty).Built)
    (hcalls : (Expr.array elements ty).containsCalls = false) {f g : Frame} {fs gs : List Frame}
    {σ τ : Session} {target : Reservation} {code : Code} (hf : f.Reachable) (htarget : f.Offers target)
    (hσ : σ.frames = f :: fs) (h : ((Expr.array elements ty).lower target).run σ = (.ok code, τ))
    (hτ : τ.frames = g :: gs) (hlt : g.highWater < 2 ^ 64) (symbol : Label → Word) (s : State)
    (hvalues : ∀ leaf ∈ (Expr.array elements ty).leaves,
      ∃ v, leaf.eval (f.context τ.data g.highWater symbol s) = some v) :
    ∃ t b slots, code.exec symbol s = some t ∧
      LaidOut (f.context τ.data g.highWater symbol s) f g (.array elements ty) target b slots s t := by
  have hvalid := hf.valid
  obtain ⟨g', hg', hgrows⟩ := (lower_grows h).frames hσ
  cases hτ.symm.trans hg'
  have hvalid' := hgrows.valid hvalid
  have hposition : g.position ≤ g.highWater := hvalid'.highWater
  have hle : f.position ≤ g.highWater := Nat.le_trans hgrows.position hposition
  obtain ⟨t, b, slots, hexec, hlaid⟩ := Setting.lays (S := f.setting τ hlt symbol s) rfl
    (.array elements ty) hbuilt.wellTyped hcalls hvalues h hσ hτ (Frame.setting_after hτ hlt) hvalid
    htarget trivial (Frame.setting_before hvalid hlt hle)
  refine ⟨t, b, slots, hexec, hlaid.lands.read, hlaid.lies, hlaid.locals, ?_, ?_, ?_⟩
  · rw [← hlaid.locals]
    exact hvalid'.apart (by omega) _
  · intro hfp slot hslot
    have hmem : slot ∈ g.locals := hlaid.locals ▸ List.mem_append_left _ hslot
    have hsize := (hvalid'.stacked.bounds slot (Frame.mem_slots_of_local hmem)).1
    exact Slot.aligned_address hsize (hlaid.beyond slot hslot).2 hfp
  · exact Frame.Lands.untouched hvalid htarget (by omega) hlaid.lands

/-- An array of two arrays, behind a variable of one byte. The first slot is padded, and the cells of the
inner arrays come after those of the outer one. -/
theorem Expr.exec_array_nested :
    let number (n : Word) : Expr := Build.literal (.int n)
    let literal : Expr :=
      .array [.array [number 1, number 2] (.ptr .int), .array [number 3] (.ptr .int)] (.ptr (.ptr .int))
    let f := Frame.Op.apply {} (.addVariable .char "c")
    let start : Session := { Session.start {} with frames := [f] }
    let s : State := ⟨fun _ => 4096, fun _ => 0, Flags.compare 0 0⟩
    ∃ code τ t, (literal.lower (.ofReg (.ptr (.ptr .int)) .x0)).run start = (.ok code, τ) ∧
      code.exec (fun _ => 0) s = some t ∧
      literal.Lies (f.context τ.data 48 (fun _ => 0) s) t (t.regs .x0)
        [⟨48, .int⟩, ⟨40, .int⟩, ⟨32, .int⟩, ⟨24, .ptr .int⟩, ⟨16, .ptr .int⟩] := by
  intro number literal f start s
  have hnumbers : ∀ numbers : List Word, ∀ element ∈ numbers.map number, element.Built :=
    fun numbers => List.forall_mem_map.mpr fun n _ => .literal (.int n)
  have hrow : ∀ numbers : List Word, Build.array .int (numbers.map number) =
      .ok (.array (numbers.map number) (.ptr .int)) → (Expr.array (numbers.map number) (.ptr .int)).Built :=
    fun numbers h => .array (hnumbers numbers) h
  have hliteral : Build.array (.ptr .int) [.array ([1, 2].map number) (.ptr .int),
      .array ([3].map number) (.ptr .int)] = .ok literal := rfl
  have hbuilt : literal.Built :=
    .array (List.forall_mem_cons.mpr ⟨hrow _ rfl, List.forall_mem_singleton.mpr (hrow _ rfl)⟩) hliteral
  obtain ⟨code, τ, hrun, htest⟩ := StepM.exists_of_any
    ((literal.lower (.ofReg (.ptr (.ptr .int)) .x0)).run start)
    (fun _ τ => τ.frames = [{ f with
      locals := [⟨48, .int⟩, ⟨40, .int⟩, ⟨32, .int⟩, ⟨24, .ptr .int⟩, ⟨16, .ptr .int⟩] ++ f.locals
      position := 48
      highWater := 48
      paddings := [0, 0, 0, 0, 7] ++ f.paddings }])
    (by decide +kernel)
  have htarget : f.Offers (.ofReg (.ptr (.ptr .int)) .x0) := Or.inl ⟨.x0, rfl, Or.inl (by decide)⟩
  have hvalues : ∀ leaf ∈ literal.leaves,
      ∃ v, leaf.eval (f.context τ.data 48 (fun _ => 0) s) = some v := by
    have hleaves : literal.leaves = [1, 2, 3].map number := rfl
    rw [hleaves]
    exact List.forall_mem_map.mpr fun n _ => ⟨n, rfl⟩
  obtain ⟨t, b, slots, hexec, hlaid⟩ :=
    exec_array hbuilt rfl (.apply (.addVariable .char "c") .empty) htarget (σ := start) rfl hrun
      (of_decide_eq_true htest) (by decide) (fun _ => 0) s hvalues
  have hslots := List.append_cancel_right hlaid.locals
  have haddress : t.regs .x0 = b := hlaid.address
  refine ⟨code, τ, t, hrun, hexec, ?_⟩
  rw [haddress, hslots]
  exact hlaid.lies

end ArmBackend
