import Khel.Proofs.Machine.Placed

/-!
# Where slots lie

Slot assignment walks through the code once, and gives out slots as it meets variables. What comes out is the code with
every operand replaced by the place that the last frame knows for it, because a slot once given is kept. The slots lie
below the frame pointer and within the frame, at multiples of their sizes, and no two of them overlap.

* `Machine.Frame.placeOf`: the place of an operand in a frame.
* `Machine.Frame.IsLaidOut`: how slots lie.
* `Machine.placeAll_lays`: placed code is the code with the places of one well laid out frame.
* `Machine.Frame.finish`: code as it comes out of slot assignment and legalization.
* `Machine.assignAllSlots_lays`: the same for all functions of a program, with the sizes that are recorded.
-/

namespace Khel.Machine

/-! ## Replacing operands -/

/-- The instruction with its operands replaced. -/
def Instr.relocate (place : Operand → Operand) (i : Instr) : Instr := Id.run (i.mapOperands fun o => pure (place o))

section Relocate

variable {place place' : Operand → Operand}

@[simp] theorem Instr.relocate_mov (w : Width) (a b : Operand) :
    (Instr.mov w a b).relocate place = .mov w (place a) (place b) := rfl

@[simp] theorem Instr.relocate_binary (op : BinOp) (w : Width) (a b : Operand) :
    (Instr.binary op w a b).relocate place = .binary op w (place a) (place b) := rfl

@[simp] theorem Instr.relocate_push (a : Operand) : (Instr.push a).relocate place = .push (place a) := rfl

theorem Instr.operands_relocate (i : Instr) : (i.relocate place).operands = i.operands.map place := by
  cases i <;> rfl

theorem Instr.relocate_congr {i : Instr} (h : ∀ o ∈ i.operands, place o = place' o) :
    i.relocate place = i.relocate place' := by
  cases i with
  | mov _ a b | movsx a b | binary _ _ a b | cmp _ a b =>
    simp only [Instr.relocate, Instr.mapOperands, h a (by simp [Instr.operands]), h b (by simp [Instr.operands])]
  | unary _ _ a | idiv _ a | setcc _ a | push a =>
    simp only [Instr.relocate, Instr.mapOperands, h a (by simp [Instr.operands])]
  | cdq _ | jmp _ | jcc _ _ | label _ | call _ | ret => rfl

end Relocate

/-! ## Frames -/

/-- The place of an operand: static variables are found in the data section, and others in their slots. -/
def Frame.placeOf (M : SymbolTable) (frame : Frame) : Operand → Operand
  | .pseudo x =>
    match M.get? x, frame.slots.get? x with
    | some (.object _ true), _ => .data x
    | some (.object _ false), some offset => .stack offset
    | _, _ => .pseudo x
  | operand => operand

/-- Slots that were given out are kept, and new ones lie below. -/
structure Frame.Extends (frame frame' : Frame) : Prop where
  bottom : frame'.bottom ≤ frame.bottom
  slots : ∀ x offset, frame.slots.get? x = some offset → frame'.slots.get? x = some offset

/-- Every slot lies within the frame at a multiple of its size, and no two slots overlap. -/
structure Frame.IsLaidOut (M : SymbolTable) (frame : Frame) : Prop where
  bottom : frame.bottom ≤ 0
  slot : ∀ x offset, frame.slots.get? x = some offset → ∃ width, M.get? x = some (.object width false) ∧
    frame.bottom ≤ offset ∧ offset + width.bytes ≤ 0 ∧ (width.bytes : Int) ∣ offset
  apart : ∀ x y offset offset' width width', x ≠ y → frame.slots.get? x = some offset →
    frame.slots.get? y = some offset' → M.get? x = some (.object width false) → M.get? y = some (.object width' false) →
    offset + width.bytes ≤ offset' ∨ offset' + width'.bytes ≤ offset

namespace Frame

variable {M M' : SymbolTable} {frame frame' frame'' : Frame}

theorem Extends.rfl : frame.Extends frame := ⟨Int.le_refl _, fun _ _ h => h⟩

theorem Extends.trans (h : frame.Extends frame') (h' : frame'.Extends frame'') : frame.Extends frame'' :=
  ⟨Int.le_trans h'.bottom h.bottom, fun x offset hx => h'.slots x offset (h.slots x offset hx)⟩

theorem isLaidOut_empty (M : SymbolTable) : IsLaidOut M {} := by
  constructor <;> simp

/-- A place is kept when more slots are given out. -/
theorem Extends.placeOf (h : frame.Extends frame') {o : Operand} (ho : (frame.placeOf M o).VarsIn fun _ => False) :
    frame'.placeOf M o = frame.placeOf M o := by
  cases o with
  | pseudo x =>
    cases hM : M.get? x with
    | none => simp [Frame.placeOf, hM] at ho
    | some s =>
      cases s with
      | function _ _ => simp [Frame.placeOf, hM] at ho
      | object width isStatic =>
        cases isStatic with
        | true => simp only [Frame.placeOf, hM]
        | false =>
          cases hx : frame.slots.get? x with
          | none => simp [Frame.placeOf, hM, hx] at ho
          | some offset => simp only [Frame.placeOf, hM, hx, h.slots x offset hx]
  | imm _ | reg _ | stack _ | data _ | str _ => rfl

end Frame

/-! ## Giving out slots -/

theorem alignDown_le (offset : Int) (w : Width) : alignDown offset w.alignment ≤ offset := by
  have hpos : 0 ≤ offset % (w.alignment : Int) := Int.emod_nonneg _ (by cases w <;> decide)
  unfold alignDown
  omega

theorem dvd_alignDown (offset : Int) (w : Width) : (w.bytes : Int) ∣ alignDown offset w.alignment :=
  Int.dvd_self_sub_emod

section Lays

variable {M : SymbolTable} {frame : Frame}

/-- A new slot is laid out like the others. -/
theorem Frame.IsLaidOut.set (hf : frame.IsLaidOut M) {x : String} {w : Width} (hx : M.get? x = some (.object w false))
    {offset : Int} (hlow : offset + w.bytes ≤ frame.bottom)
    (hdvd : (w.bytes : Int) ∣ offset) : IsLaidOut M { bottom := offset, slots := frame.slots.set x offset } := by
  have hbottom := hf.bottom
  -- The slots given out before all lie above the bottom.
  have hold : ∀ y offset', (frame.slots.set x offset).get? y = some offset' →
      x = y ∧ offset = offset' ∨ x ≠ y ∧ frame.slots.get? y = some offset' ∧ frame.bottom ≤ offset' := by
    intro y offset' hy
    rw [Table.get?_set] at hy
    split at hy
    · next he => exact .inl ⟨he, Option.some.inj hy⟩
    · next hne =>
      obtain ⟨_, _, hle, _⟩ := hf.slot y offset' hy
      exact .inr ⟨hne, hy, hle⟩
  refine ⟨by simp only; omega, fun y offset' hy => ?_, fun y z o o' w₁ w₂ hne hy hz h₁ h₂ => ?_⟩
  · obtain ⟨rfl, rfl⟩ | ⟨_, hy, hle⟩ := hold y offset' hy
    · exact ⟨w, hx, Int.le_refl _, by omega, hdvd⟩
    · obtain ⟨w', hw', _, hend, hd⟩ := hf.slot y offset' hy
      exact ⟨w', hw', by simp only; omega, hend, hd⟩
  · obtain ⟨rfl, rfl⟩ | ⟨_, hy, hle⟩ := hold y o hy
    · obtain ⟨rfl, rfl⟩ | ⟨_, _, hle'⟩ := hold z o' hz
      · exact absurd rfl hne
      · cases hx.symm.trans h₁
        exact .inl (by omega)
    · obtain ⟨rfl, rfl⟩ | ⟨_, hz, _⟩ := hold z o' hz
      · cases hx.symm.trans h₂
        exact .inr (by omega)
      · exact hf.apart y z o o' w₁ w₂ hne hy hz h₁ h₂

theorem slotFor_lays (hf : frame.IsLaidOut M) {x : String} {w : Width} (hx : M.get? x = some (.object w false)) :
    Ensures (slotFor x w) frame (fun _ => True) fun offset frame' =>
      frame.Extends frame' ∧ frame'.IsLaidOut M ∧ frame'.slots.get? x = some offset := by
  refine .get_bind ?_
  split
  · next offset hslot => exact .pure ⟨.rfl, hf, hslot⟩
  · next hslot =>
    have hle := alignDown_le frame.bottom w
    refine .set_bind (.pure ⟨⟨by simp only; omega, fun y offset hy => ?_⟩, ?_, by simp⟩)
    · rw [Table.get?_set, if_neg, hy]
      rintro rfl
      rw [hslot] at hy
      cases hy
    · exact hf.set hx (by omega) (Int.dvd_sub (dvd_alignDown _ w) (Int.dvd_refl _))

/-- An operand is given the place that the frame then knows for it. -/
theorem Operand.place_lays (hf : frame.IsLaidOut M) (o : Operand) :
    Ensures (o.place M) frame (fun _ => True) fun o' frame' => frame.Extends frame' ∧ frame'.IsLaidOut M ∧
      o' = frame'.placeOf M o ∧ o'.VarsIn fun _ => False := by
  cases o with
  | pseudo x =>
    rw [Operand.place]
    split
    · next width hx => exact .pure ⟨.rfl, hf, by simp [Frame.placeOf, hx], by simp⟩
    · next width hx =>
      refine .bind (slotFor_lays hf hx) fun offset frame' hframe => ?_
      obtain ⟨hext, hf', hslot⟩ := hframe
      exact .pure ⟨hext, hf', by simp [Frame.placeOf, hx, hslot], by simp⟩
    · exact .throw trivial
  | imm _ | reg _ | stack _ | data _ | str _ => exact .pure ⟨.rfl, hf, rfl, by simp⟩

/-- The operands of an instruction are given the places that the frame then knows for them. -/
theorem Instr.place_lays (hf : frame.IsLaidOut M) (i : Instr) :
    Ensures (i.mapOperands (Operand.place M)) frame (fun _ => True) fun i' frame' => frame.Extends frame' ∧
      frame'.IsLaidOut M ∧ i' = i.relocate (frame'.placeOf M) ∧ i'.VarsIn fun _ => False := by
  cases i with
  | mov _ a b | movsx a b | binary _ _ a b | cmp _ a b =>
    refine .bind (Operand.place_lays hf a) fun a' frame₁ ⟨hext₁, hf₁, ha, hvars₁⟩ => ?_
    refine .bind (Operand.place_lays hf₁ b) fun b' frame₂ ⟨hext₂, hf₂, hb, hvars₂⟩ => ?_
    -- The second operand may bring a new slot, which changes nothing for the first.
    have ha₂ : a' = frame₂.placeOf M a := by rw [ha, hext₂.placeOf (ha ▸ hvars₁)]
    refine .pure ⟨hext₁.trans hext₂, hf₂, by rw [ha₂, hb]; rfl, ?_⟩
    simp [Instr.VarsIn, Instr.operands, hvars₁, hvars₂]
  | unary _ _ a | idiv _ a | setcc _ a | push a =>
    refine .bind (Operand.place_lays hf a) fun a' frame₁ ⟨hext₁, hf₁, ha, hvars₁⟩ => ?_
    exact .pure ⟨hext₁, hf₁, by rw [ha]; rfl, by simp [Instr.VarsIn, Instr.operands, hvars₁]⟩
  | cdq _ | jmp _ | jcc _ _ | label _ | call _ | ret =>
    exact .pure ⟨.rfl, hf, rfl, by simp [Instr.VarsIn, Instr.operands]⟩

/-- Placed code is the code with the places of the last frame. -/
theorem placeAll_lays : ∀ (code : List Instr) {frame : Frame}, frame.IsLaidOut M →
    Ensures (placeAll M code) frame (fun _ => True) fun code' frame' => frame.Extends frame' ∧ frame'.IsLaidOut M ∧
      code' = code.map (Instr.relocate (frame'.placeOf M)) ∧ Placed code'
  | [], _, hf => .pure ⟨.rfl, hf, rfl, codeVarsIn_nil⟩
  | i :: is, frame, hf => by
    refine .bind (Instr.place_lays hf i) fun i' frame₁ ⟨hext₁, hf₁, hi, hvars⟩ => ?_
    refine .bind (placeAll_lays is hf₁) fun is' frame₂ ⟨hext₂, hf₂, his, hplaced⟩ => ?_
    have hi₂ : i' = i.relocate (frame₂.placeOf M) := by
      rw [hi]
      refine Instr.relocate_congr fun o ho => (hext₂.placeOf (hvars _ ?_)).symm
      rw [hi, Instr.operands_relocate]
      exact List.mem_map_of_mem ho
    exact .pure ⟨hext₁.trans hext₂, hf₂, by rw [hi₂, his]; rfl, codeVarsIn_cons.2 ⟨hvars, hplaced⟩⟩

end Lays

/-! ## Finished code -/

/-- The code as it comes out, placed in a frame and made legal. -/
def Frame.finish (M : SymbolTable) (frame : Frame) (code : List Instr) : List Instr :=
  (code.map (Instr.relocate (frame.placeOf M))).flatMap legalCode

section Finish

variable {M : SymbolTable} {frame : Frame} {i : Instr} {a b : List Instr}

@[simp] theorem Frame.finish_append : frame.finish M (a ++ b) = frame.finish M a ++ frame.finish M b := by
  simp [Frame.finish]

theorem Frame.finish_cons : frame.finish M (i :: a) = legalCode (i.relocate (frame.placeOf M)) ++ frame.finish M a := by
  simp [Frame.finish]

@[simp] theorem Frame.finish_nil : frame.finish M [] = [] := rfl

/-- What is no variable stays. -/
theorem Frame.placeOf_of_isPseudo {o : Operand} (h : o.isPseudo = false) : frame.placeOf M o = o := by
  cases o with
  | pseudo x => cases h
  | _ => rfl

/-- A variable is not put into a register. -/
theorem Frame.placeOf_eq_reg {o : Operand} {r : Register} (h : frame.placeOf M o = .reg r) : o = .reg r := by
  cases o with
  | pseudo x =>
    simp only [Frame.placeOf] at h
    split at h <;> cases h
  | _ => exact h

/-- Legal code is made of the legal code of each instruction. -/
theorem legalize_flatMap : ∀ code : List Instr,
    Yields (legalize code) (fun _ => True) fun code' => code' = code.flatMap legalCode
  | [] => .pure rfl
  | i :: is => by
    unfold legalize
    split
    · exact .throw trivial
    · exact .bind (legalize_flatMap is) fun code' hcode => .pure (by rw [hcode, List.flatMap_cons])

end Finish

/-! ## Functions -/

/-- The tables know the same variables. -/
def SymbolTable.SameObjects (M M' : SymbolTable) : Prop :=
  ∀ x width isStatic, M'.get? x = some (.object width isStatic) ↔ M.get? x = some (.object width isStatic)

/-- The function `f'` is `f` with every variable in its place in a well laid out frame of the given size. -/
def Function.PlacedAs (M : SymbolTable) (f f' : Function) (size : Int) : Prop :=
  ∃ frame : Frame, frame.IsLaidOut M ∧ size = -frame.bottom ∧ Placed f'.code ∧
    f' = { f with code := f.code.map (Instr.relocate (frame.placeOf M)) }

section Functions

variable {M M' : SymbolTable} {f f' : Function} {size : Int}

/-- Where an operand goes depends on the variables of the table only. -/
theorem Operand.place_congr (hM : M.SameObjects M') : Operand.place M' = Operand.place M := by
  funext o
  cases o with
  | pseudo x =>
    cases h : M.get? x with
    | none => cases h' : M'.get? x with
      | none => simp only [Operand.place, h, h']
      | some s' => cases s' with
        | object width isStatic => cases h.symm.trans ((hM x width isStatic).1 h')
        | function _ _ => simp only [Operand.place, h, h']
    | some s => cases s with
      | object width isStatic => simp only [Operand.place, h, (hM x width isStatic).2 h]
      | function _ _ => cases h' : M'.get? x with
        | none => simp only [Operand.place, h, h']
        | some s' => cases s' with
          | object width isStatic => cases h.symm.trans ((hM x width isStatic).1 h')
          | function _ _ => simp only [Operand.place, h, h']
  | imm _ | reg _ | stack _ | data _ | str _ => rfl

theorem placeAll_congr (hM : M.SameObjects M') : ∀ code : List Instr, placeAll M' code = placeAll M code
  | [] => rfl
  | i :: is => by simp only [placeAll, Operand.place_congr hM, placeAll_congr hM is]

theorem Function.assignSlots_congr (hM : M.SameObjects M') (f : Function) : f.assignSlots M' = f.assignSlots M := by
  rw [Function.assignSlots, placeAll_congr hM, Function.assignSlots]

theorem Function.assignSlots_lays (M : SymbolTable) (f : Function) :
    Yields (f.assignSlots M) (fun _ => True) fun r => f.PlacedAs M r.1 r.2 := by
  refine .bind (placeAll_lays f.code (Frame.isLaidOut_empty M)) fun r ⟨_, hf, hcode, hplaced⟩ => ?_
  have hsize : (r.2.bottom.natAbs : Int) = -r.2.bottom := by
    have := hf.bottom
    omega
  exact .pure ⟨r.2, hf, hsize, hplaced, by rw [hcode]⟩

/-- Recording a frame touches no variable and no frame that was recorded before. -/
theorem SymbolTable.setFrameSize_lays (M : SymbolTable) (x : String) (size : Int) :
    Yields (M.setFrameSize x size) (fun _ => True) fun M' => M.SameObjects M' ∧ M'.frameSize? x = some size ∧
      ∀ y size', M.frameSize? y = some size' → M'.frameSize? y = some size' := by
  unfold SymbolTable.setFrameSize
  split
  · exact .throw trivial
  · next isDefined hx =>
    refine .pure ⟨fun y width isStatic => ?_, by simp [SymbolTable.frameSize?], fun y size' hy => ?_⟩
    · rw [Table.get?_set]
      split
      · next he =>
        subst he
        simp [hx]
      · rfl
    · rw [SymbolTable.frameSize?, Table.get?_set, if_neg]
      · exact hy
      · rintro rfl
        simp [SymbolTable.frameSize?, hx] at hy
  · exact .throw trivial

/-- The slots of every function are assigned on their own, and the size of its frame is recorded. -/
theorem assignAllSlots_each : ∀ (fs : List Function) (M : SymbolTable),
    Yields (assignAllSlots M fs) (fun _ => True) fun r => M.SameObjects r.2 ∧
      (∀ x size, M.frameSize? x = some size → r.2.frameSize? x = some size) ∧
      List.Forall₂ (fun f f' => ∃ size, r.2.frameSize? f.name = some size ∧ f.assignSlots M = .ok (f', size)) fs r.1
  | [], M => .pure ⟨fun _ _ _ => Iff.rfl, fun _ _ h => h, .nil⟩
  | f :: fs, M => by
    refine .bind (.of_forall fun r h => h) ?_
    rintro ⟨f', size⟩ hf
    have hname : f'.name = f.name := by
      obtain ⟨_, _, _, _, rfl⟩ := (Function.assignSlots_lays M f).of_ok hf
      rfl
    refine .bind (SymbolTable.setFrameSize_lays M f'.name size) fun M₁ ⟨hsame, hsize, hkeep⟩ => ?_
    refine .bind (assignAllSlots_each fs M₁) ?_
    rintro ⟨fs', M₂⟩ ⟨hsame', hkeep', hfs⟩
    refine .pure ⟨fun x w s => (hsame' x w s).trans (hsame x w s), fun x n h => hkeep' x n (hkeep x n h), .cons ?_ ?_⟩
    · exact ⟨size, hkeep' _ _ (hname ▸ hsize), hf⟩
    · exact hfs.imp fun g _ ⟨n, hn, hg⟩ => ⟨n, hn, g.assignSlots_congr hsame ▸ hg⟩

/-- Every function is placed in a frame of its own, whose size is recorded. -/
theorem assignAllSlots_lays (fs : List Function) (M : SymbolTable) :
    Yields (assignAllSlots M fs) (fun _ => True) fun r => M.SameObjects r.2 ∧
      (∀ x size, M.frameSize? x = some size → r.2.frameSize? x = some size) ∧
      List.Forall₂ (fun f f' => ∃ size, r.2.frameSize? f.name = some size ∧ f.PlacedAs M f' size) fs r.1 := by
  refine (assignAllSlots_each fs M).mono fun r hr => ?_
  obtain ⟨hsame, hkeep, hfs⟩ := hr
  exact ⟨hsame, hkeep, hfs.imp fun f _ ⟨n, hn, hg⟩ => ⟨n, hn, (Function.assignSlots_lays M f).of_ok hg⟩⟩

theorem Program.assignSlots_lays (p : Program) (M : SymbolTable) :
    Yields (p.assignSlots M) (fun _ => True) fun r => M.SameObjects r.2 ∧
      (∀ x size, M.frameSize? x = some size → r.2.frameSize? x = some size) ∧
      List.Forall₂ (fun f f' => ∃ size, r.2.frameSize? f.name = some size ∧ f.PlacedAs M f' size) p.functions
        r.1.functions :=
  .bind (assignAllSlots_lays p.functions M) fun _ h => .pure h

end Functions

end Khel.Machine
