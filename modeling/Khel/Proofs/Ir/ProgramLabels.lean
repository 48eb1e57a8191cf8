import Khel.Proofs.Ir.Minting

/-!
# The labels of a program

All functions of a program take their numbers from one counter, and loops are numbered over the whole program. So a
label stands once in a program and not only once in its function. What a label looks like is known, too: one of a few
stems, a point and a number.

* `Ir.IsLabel`: what the labels that lowering makes look like.
* `lowerFunctions_places`: the labels of the functions of a program, taken together.
* `Program.lower_labels`: no label stands twice in a program, and every jump finds its label in its own function.
-/

namespace Khel

namespace Ir

/-! ## Names of labels -/

/-- The stems of the labels that are made for the loops of a program. -/
def loopLabelStems : List String := ["continue.while", "continue.loop", "break.while", "break.loop"]

/-- The label is one that lowering makes. -/
def IsLabel (l : String) : Prop := ∃ stem ∈ labelStems ++ loopLabelStems, ∃ n, l = numbered stem n

theorem isLabel_of_numberedRoom {lo hi : Nat} {l : String} (h : 0 < numberedRoom lo hi l) : IsLabel l := by
  unfold numberedRoom at h
  split at h
  · next hl =>
    obtain ⟨stem, n, hstem, _, _, rfl⟩ := hl
    exact ⟨stem, List.mem_append_left _ hstem, n, rfl⟩
  · cases h

/-- The labels of a loop that has its id from labelling. -/
theorem isLabel_of_loop {stem : String} (hstem : stem = "while" ∨ stem = "loop") (n : Nat) {l : String}
    (hl : l = continueLabel (numbered stem n) ∨ l = breakLabel (numbered stem n)) : IsLabel l := by
  rw [continueLabel_numbered, breakLabel_numbered] at hl
  rcases hl with rfl | rfl
  · refine ⟨"continue." ++ stem, List.mem_append_right _ ?_, n, rfl⟩
    rcases hstem with rfl | rfl <;> decide
  · refine ⟨"break." ++ stem, List.mem_append_right _ ?_, n, rfl⟩
    rcases hstem with rfl | rfl <;> decide

/-- The labels of a piece of code are made by lowering, if its loops were labelled. -/
theorem Places.isLabel {lo hi : Nat} {ids : List String} {current : Option String} {code : List Instr}
    (h : Places lo hi ids current code)
    (hids : ∀ id ∈ ids, ∃ stem n, (stem = "while" ∨ stem = "loop") ∧ id = numbered stem n) :
    ∀ l ∈ labels code, IsLabel l := by
  intro l hl
  have hcount := List.count_pos_iff.2 hl
  have hroom := h.room l
  by_cases hnum : 0 < numberedRoom lo hi l
  · exact isLabel_of_numberedRoom hnum
  · obtain ⟨id, hid, hl⟩ := mem_of_loopRoom_pos (show 0 < loopRoom ids l by omega)
    obtain ⟨stem, n, hstem, rfl⟩ := hids id hid
    exact isLabel_of_loop hstem n hl

/-- Code outside of loops jumps to its own labels. -/
theorem Places.found_none {lo hi : Nat} {ids : List String} {code : List Instr} (h : Places lo hi ids none code) :
    ∀ t ∈ targets code, t ∈ labels code := by
  intro t ht
  rcases h.found t ht with hl | ⟨_, hid, _⟩
  · exact hl
  · cases hid

theorem labels_flatMap (fs : List Function) :
    labels (fs.flatMap Function.code) = fs.flatMap fun f => labels f.code := List.filterMap_flatMap ..

end Ir

open Ir

/-! ## Programs -/

theorem FnHead.lower_places (head : FnHead) {body : List Item} (h : itemsLabelled none body) (st : LoweringState) :
    Ensures (head.lower (some body)) st (fun _ => True) fun f st' =>
      Places st.labels st'.labels (itemsLoopIds body) none f.code := by
  apply Ensures.bind (head.isGlobalNow_ensures st)
  intro isGlobal st₁ hst
  obtain ⟨rfl, _⟩ := hst
  apply Ensures.bind (lowerItems_labels none body _ h)
  intro code st₂ hcode
  apply Ensures.pure
  show Places _ _ _ none (if itemsHaveReturn body then code else code ++ [.ret (.int 0)])
  split
  · exact hcode
  · exact hcode.append_plain rfl rfl

/-- The functions of a program share one counter for their labels, and jump to their own labels only. -/
theorem lowerFunctions_places : ∀ (ds : List Decl) (st : LoweringState), (∀ d ∈ ds, d.Labelled) →
    Ensures (lowerFunctions ds) st (fun _ => True) fun fs st' =>
      Places st.labels st'.labels (ds.flatMap Decl.loopIds) none (fs.flatMap Function.code) ∧
      ∀ f ∈ fs, ∀ t ∈ targets f.code, t ∈ labels f.code
  | [], st, _ => by
    rw [lowerFunctions]
    exact .pure ⟨.nil _ none, by simp⟩
  | .fn head (some body) :: rest, st, h => by
    rw [lowerFunctions]
    obtain ⟨hbody, hrest⟩ := List.forall_mem_cons.1 h
    apply Ensures.bind (head.lower_places hbody st)
    intro f st₁ hf
    apply Ensures.bind (lowerFunctions_places rest st₁ hrest)
    intro fs st₂ hfs
    obtain ⟨hplaces, hfound⟩ := hfs
    exact .pure ⟨hf.append hplaces, List.forall_mem_cons.2 ⟨hf.found_none, hfound⟩⟩
  | .fn _ none :: rest, st, h | .var _ :: rest, st, h => by
    rw [lowerFunctions]
    exact lowerFunctions_places rest st (List.forall_mem_cons.1 h).2

/-- No label stands twice in a program, every jump finds its label in its own function, and all labels are known by
their stems. -/
theorem Program.lower_labels {q : Program} {T T' : SymbolTable} {ir : Ir.Program} (hloops : LoopsNumbered q.decls)
    (hlab : ∀ d ∈ q.decls, d.Labelled) (h : q.lower T = .ok (ir, T')) :
    (ir.functions.flatMap fun f => labels f.code).Nodup ∧
      (∀ f ∈ ir.functions, ∀ t ∈ targets f.code, t ∈ labels f.code) ∧
      ∀ f ∈ ir.functions, ∀ l ∈ labels f.code, IsLabel l := by
  obtain ⟨⟨fs, st⟩, hrun, hir⟩ := Except.exists_of_bind h
  cases hir
  obtain ⟨hplaces, hfound⟩ := (lowerFunctions_places q.decls _ hlab).of_ok hrun
  obtain ⟨stems, hstems, hids⟩ := hloops
  have hnum : ∀ id ∈ q.decls.flatMap Decl.loopIds,
      ∃ stem n, (stem = "while" ∨ stem = "loop") ∧ id = numbered stem n := by
    intro id hid
    obtain ⟨stem, hstem, n, _, rfl⟩ := mem_numberFrom (hids ▸ hid)
    exact ⟨stem, n, hstems stem hstem, rfl⟩
  have hnodup := hplaces.nodup (hids ▸ nodup_numberFrom 0 stems) fun id hid => by
    obtain ⟨stem, n, _, rfl⟩ := hnum id hid
    exact ⟨stem, n, rfl⟩
  have hlabel := hplaces.isLabel hnum
  rw [labels_flatMap] at hnodup hlabel
  refine ⟨hnodup, hfound, ?_⟩
  intro f hf l hl
  exact hlabel l (List.mem_flatMap.2 ⟨f, hf, hl⟩)

end Khel
