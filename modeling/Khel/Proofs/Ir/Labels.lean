import Khel.Ir.Lowering.Program
import Khel.Proofs.Naming.Labelled

/-!
# Labels of intermediate code

Lowering makes a label out of the next number, or out of the id of a loop. Numbers are used once and the ids of loops
differ, so no label stands twice in a function; and every jump goes to a label of its own piece of code, or to one of
the two labels of the loop around it.

* `Expr.lower_labels`, `Stmt.lower_labels`: which labels a piece of code defines, and where its jumps go.
* `LowersTo.labels`: no label stands twice in a function, and every jump finds its label there.

How often a label occurs is counted, so that it does not matter in which order the pieces stand.
-/

namespace Khel.Ir

/-! ## Labels and targets -/

/-- The label that an instruction defines. -/
def Instr.label? : Instr → Option String
  | .label id => some id
  | _ => none

/-- The label that an instruction may jump to. -/
def Instr.target? : Instr → Option String
  | .jump t | .jumpIfZero _ t | .jumpIfNotZero _ t => some t
  | _ => none

/-- The labels that a piece of code defines. -/
def labels (code : List Instr) : List String := code.filterMap Instr.label?

/-- The labels that a piece of code jumps to. -/
def targets (code : List Instr) : List String := code.filterMap Instr.target?

@[simp] theorem labels_nil : labels [] = [] := rfl

@[simp] theorem labels_append (a b : List Instr) : labels (a ++ b) = labels a ++ labels b := List.filterMap_append

@[simp] theorem labels_cons (i : Instr) (code : List Instr) : labels (i :: code) = i.label?.toList ++ labels code := by
  cases h : i.label? <;> simp [labels, h]

@[simp] theorem targets_nil : targets [] = [] := rfl

@[simp] theorem targets_append (a b : List Instr) : targets (a ++ b) = targets a ++ targets b := List.filterMap_append

@[simp] theorem targets_cons (i : Instr) (code : List Instr) :
    targets (i :: code) = i.target?.toList ++ targets code := by
  cases h : i.target? <;> simp [targets, h]

attribute [simp] Instr.label? Instr.target?

section Layouts

variable (start loop isFalse isTrue done : String) (left right test first last : List Instr × Value)
  (yes no : List Instr × Value) (body other : List Instr) (dst var one : Value)

@[simp] theorem labels_andCode :
    labels (andCode isFalse done left right dst) = labels left.1 ++ labels right.1 ++ [isFalse, done] := by
  simp [andCode]

@[simp] theorem targets_andCode : targets (andCode isFalse done left right dst) =
    targets left.1 ++ [isFalse] ++ targets right.1 ++ [isFalse, done] := by
  simp [andCode]

@[simp] theorem labels_orCode :
    labels (orCode isTrue done left right dst) = labels left.1 ++ labels right.1 ++ [isTrue, done] := by
  simp [orCode]

@[simp] theorem targets_orCode : targets (orCode isTrue done left right dst) =
    targets left.1 ++ [isTrue] ++ targets right.1 ++ [isTrue, done] := by
  simp [orCode]

@[simp] theorem labels_condCode : labels (condCode isFalse done test yes no dst) =
    labels test.1 ++ labels yes.1 ++ [isFalse] ++ labels no.1 ++ [done] := by
  simp [condCode]

@[simp] theorem targets_condCode : targets (condCode isFalse done test yes no dst) =
    targets test.1 ++ [isFalse] ++ targets yes.1 ++ [done] ++ targets no.1 := by
  simp [condCode]

@[simp] theorem labels_ifThenCode : labels (ifThenCode done test body) = labels test.1 ++ labels body ++ [done] := by
  simp [ifThenCode]

@[simp] theorem targets_ifThenCode :
    targets (ifThenCode done test body) = targets test.1 ++ [done] ++ targets body := by
  simp [ifThenCode]

@[simp] theorem labels_ifElseCode : labels (ifElseCode isFalse done test body other) =
    labels test.1 ++ labels body ++ [isFalse] ++ labels other ++ [done] := by
  simp [ifElseCode]

@[simp] theorem targets_ifElseCode : targets (ifElseCode isFalse done test body other) =
    targets test.1 ++ [isFalse] ++ targets body ++ [done] ++ targets other := by
  simp [ifElseCode]

@[simp] theorem labels_whileCode : labels (whileCode start loop test body) =
    [start] ++ labels test.1 ++ labels body ++ [continueLabel loop, breakLabel loop] := by
  simp [whileCode]

@[simp] theorem targets_whileCode : targets (whileCode start loop test body) =
    targets test.1 ++ [breakLabel loop] ++ targets body ++ [start] := by
  simp [whileCode]

@[simp] theorem labels_rangeCode : labels (rangeCode start loop var one dst first last body) =
    labels first.1 ++ [start] ++ labels last.1 ++ labels body ++ [continueLabel loop, breakLabel loop] := by
  simp [rangeCode]

@[simp] theorem targets_rangeCode : targets (rangeCode start loop var one dst first last body) =
    targets first.1 ++ targets last.1 ++ [breakLabel loop] ++ targets body ++ [start] := by
  simp [rangeCode]

end Layouts

/-! ## Room for labels -/

/-- The stems of the labels that lowering makes out of numbers. -/
def labelStems : List String :=
  ["and_false", "and_end", "or_true", "or_end", "cond_else", "cond_end", "if_else", "if_end", "while_start",
    "loop_start"]

theorem dotless_of_mem_labelStems : ∀ stem ∈ labelStems, Dotless stem := by decide

open Classical in
/-- How often a label may occur that is made out of a number from `lo` up to `hi`. -/
noncomputable def numberedRoom (lo hi : Nat) (l : String) : Nat :=
  if ∃ stem n, stem ∈ labelStems ∧ lo ≤ n ∧ n < hi ∧ l = numbered stem n then 1 else 0

/-- How often a label may occur that is made out of the id of a loop. -/
def loopRoom (ids : List String) (l : String) : Nat :=
  (ids.map continueLabel).count l + (ids.map breakLabel).count l

/-- Room is divided where numbers are. -/
theorem numberedRoom_add {lo mid hi : Nat} (h₁ : lo ≤ mid) (h₂ : mid ≤ hi) (l : String) :
    numberedRoom lo mid l + numberedRoom mid hi l = numberedRoom lo hi l := by
  unfold numberedRoom
  by_cases hl : ∃ stem n, stem ∈ labelStems ∧ l = numbered stem n
  · obtain ⟨stem, n, hd, rfl⟩ := hl
    have key : ∀ a b, (∃ stem' m, stem' ∈ labelStems ∧ a ≤ m ∧ m < b ∧ numbered stem n = numbered stem' m) ↔
        a ≤ n ∧ n < b := by
      intro a b
      constructor
      · rintro ⟨stem', m, _, ha, hb, he⟩
        obtain ⟨_, rfl⟩ := numbered_inj.1 he
        exact ⟨ha, hb⟩
      · rintro ⟨ha, hb⟩
        exact ⟨stem, n, hd, ha, hb, rfl⟩
    simp only [key]
    split <;> split <;> split <;> omega
  · have key : ∀ a b, ¬ ∃ stem n, stem ∈ labelStems ∧ a ≤ n ∧ n < b ∧ l = numbered stem n := by
      rintro a b ⟨stem, n, hd, _, _, he⟩
      exact hl ⟨stem, n, hd, he⟩
    simp only [key, if_false]

/-- A numbered label takes the room of its number. -/
theorem count_numbered_le {stem : String} (h : stem ∈ labelStems) (n : Nat) (l : String) :
    [numbered stem n].count l ≤ numberedRoom n (n + 1) l := by
  by_cases hl : numbered stem n = l
  · subst hl
    have : numberedRoom n (n + 1) (numbered stem n) = 1 := if_pos ⟨stem, n, h, Nat.le_refl n, Nat.lt_succ_self n, rfl⟩
    rw [this]
    simp
  · simp [hl]

theorem loopRoom_append (a b : List String) (l : String) : loopRoom (a ++ b) l = loopRoom a l + loopRoom b l := by
  simp only [loopRoom, List.map_append, List.count_append]
  omega

/-- A piece of code was made with the numbers from `lo` up to `hi`, from loops with the ids `ids`, inside the loop
`current`. -/
structure Places (lo hi : Nat) (ids : List String) (current : Option String) (code : List Instr) : Prop where
  le : lo ≤ hi
  room : ∀ l, (labels code).count l ≤ numberedRoom lo hi l + loopRoom ids l
  found : ∀ t ∈ targets code, t ∈ labels code ∨ ∃ id ∈ current, t = continueLabel id ∨ t = breakLabel id

theorem Places.nil (n : Nat) (current : Option String) : Places n n [] current [] := ⟨Nat.le_refl n, by simp, by simp⟩

/-- A piece of code without labels and jumps. -/
theorem Places.append_plain {lo hi : Nat} {ids : List String} {current : Option String} {code more : List Instr}
    (h : Places lo hi ids current code) (hl : labels more = []) (ht : targets more = []) :
    Places lo hi ids current (code ++ more) :=
  ⟨h.le, by simpa [hl] using h.room, by simpa [hl, ht] using h.found⟩

theorem Places.append {lo mid hi : Nat} {ids ids' : List String} {current : Option String} {a b : List Instr}
    (ha : Places lo mid ids current a) (hb : Places mid hi ids' current b) :
    Places lo hi (ids ++ ids') current (a ++ b) := by
  refine ⟨Nat.le_trans ha.le hb.le, fun l => ?_, fun t ht => ?_⟩
  · have h₁ := ha.room l
    have h₂ := hb.room l
    have h₃ := numberedRoom_add ha.le hb.le l
    rw [labels_append, List.count_append, loopRoom_append]
    omega
  · rw [targets_append, List.mem_append] at ht
    rw [labels_append, List.mem_append]
    rcases ht with ht | ht
    · exact (ha.found t ht).imp_left .inl
    · exact (hb.found t ht).imp_left .inr

/-- Code in no loop may stand in any. -/
theorem Places.inLoop {lo hi : Nat} {ids : List String} {code : List Instr} (h : Places lo hi ids none code)
    (current : Option String) : Places lo hi ids current code :=
  ⟨h.le, h.room, fun t ht => (h.found t ht).imp_right fun ⟨_, hm, _⟩ => by cases hm⟩

/-- Code that puts new labels around another piece: `new` are those labels, made with the numbers from `lo` up to `mid`
or from the loops `own`. -/
theorem Places.around {lo mid hi : Nat} {ids : List String} {current inner : Option String}
    {code piece : List Instr} (own new : List String) (hpiece : Places mid hi ids inner piece) (hle : lo ≤ mid)
    (hnew : ∀ l, new.count l ≤ numberedRoom lo mid l + loopRoom own l)
    (hlabels : ∀ l, (labels code).count l = new.count l + (labels piece).count l)
    (htargets : ∀ t ∈ targets code, t ∈ new ∨ t ∈ targets piece)
    (hinner : ∀ id ∈ inner, continueLabel id ∈ new ∧ breakLabel id ∈ new ∨ id ∈ current) :
    Places lo hi (own ++ ids) current code := by
  have hmem : ∀ l, l ∈ labels code ↔ l ∈ new ∨ l ∈ labels piece := by
    intro l
    have := hlabels l
    simp only [← List.count_pos_iff]
    omega
  refine ⟨Nat.le_trans hle hpiece.le, fun l => ?_, fun t ht => ?_⟩
  · have h₁ := hnew l
    have h₂ := hpiece.room l
    have h₃ := numberedRoom_add hle hpiece.le l
    rw [hlabels l, loopRoom_append]
    omega
  · rw [hmem]
    rcases htargets t ht with ht | ht
    · exact .inl (.inl ht)
    · rcases hpiece.found t ht with ht | ⟨id, hid, ht⟩
      · exact .inl (.inr ht)
      · rcases hinner id hid with ⟨hc, hb⟩ | hid
        · rcases ht with rfl | rfl
          · exact .inl (.inl hc)
          · exact .inl (.inl hb)
        · exact .inr ⟨id, hid, ht⟩

/-- One new label around a piece. -/
theorem Places.aroundOne {n hi : Nat} {ids : List String} {current : Option String} {code piece : List Instr}
    (stem : String) (hpiece : Places (n + 1) hi ids current piece) (hs : stem ∈ labelStems)
    (hlabels : ∀ l, (labels code).count l = [numbered stem n].count l + (labels piece).count l)
    (htargets : ∀ t ∈ targets code, t = numbered stem n ∨ t ∈ targets piece) : Places n hi ids current code := by
  refine hpiece.around [] [numbered stem n] (by omega) (fun l => ?_) hlabels (fun t ht => ?_) fun id hid => .inr hid
  · exact Nat.le_trans (count_numbered_le hs n l) (Nat.le_add_right _ _)
  · simpa using htargets t ht

/-- The labels of a loop around a piece that may jump to them. -/
theorem Places.aroundLoop {n hi : Nat} {ids : List String} {current : Option String} {code piece : List Instr}
    (stem id : String) (hpiece : Places (n + 1) hi ids (some id) piece) (hs : stem ∈ labelStems)
    (hlabels : ∀ l, (labels code).count l =
      [numbered stem n, continueLabel id, breakLabel id].count l + (labels piece).count l)
    (htargets : ∀ t ∈ targets code, t = numbered stem n ∨ t = breakLabel id ∨ t ∈ targets piece) :
    Places n hi (id :: ids) current code := by
  refine hpiece.around [id] [numbered stem n, continueLabel id, breakLabel id] (by omega) (fun l => ?_) hlabels
    (fun t ht => ?_) fun id hid => .inl ?_
  · have h := count_numbered_le hs n l
    simp only [loopRoom, List.map_cons, List.map_nil, List.count_cons, List.count_nil] at h ⊢
    omega
  · rcases htargets t ht with rfl | rfl | ht <;> simp [*]
  · cases hid
    simp

/-- Two new labels around a piece. -/
theorem Places.aroundTwo {n hi : Nat} {ids : List String} {current : Option String} {code piece : List Instr}
    (stem stem' : String) (hpiece : Places (n + 1 + 1) hi ids current piece) (hs : stem ∈ labelStems)
    (hs' : stem' ∈ labelStems)
    (hlabels : ∀ l, (labels code).count l =
      [numbered stem n].count l + [numbered stem' (n + 1)].count l + (labels piece).count l)
    (htargets : ∀ t ∈ targets code, t = numbered stem n ∨ t = numbered stem' (n + 1) ∨ t ∈ targets piece) :
    Places n hi ids current code := by
  refine hpiece.around [] [numbered stem n, numbered stem' (n + 1)] (by omega) (fun l => ?_) (fun l => ?_)
    (fun t ht => ?_) fun id hid => .inr hid
  · have h₁ := count_numbered_le hs n l
    have h₂ := count_numbered_le hs' (n + 1) l
    have h₃ := numberedRoom_add (Nat.le_add_right n 1) (Nat.le_add_right (n + 1) 1) l
    rw [List.count_cons]
    rw [List.count_singleton] at h₁
    omega
  · simp only [hlabels, List.count_cons, List.count_nil]
    omega
  · simpa [or_assoc] using htargets t ht

/-! ## Steps of lowering -/

variable {E : Fault → Prop}

theorem Lowering.label_ensures (stem : String) (st : LoweringState) :
    Ensures (Lowering.label stem) st E fun l st' => l = numbered stem st.labels ∧ st'.labels = st.labels + 1 ∧
      st'.temps = st.temps ∧ st'.symbols = st.symbols :=
  .get_bind <| .set_bind <| .pure ⟨rfl, rfl, rfl, rfl⟩

theorem Lowering.temp_ensures (ty : Ty) (st : LoweringState) :
    Ensures (Lowering.temp ty) st E fun v st' => v = .var (numbered "tmp" st.temps) ∧ st'.labels = st.labels ∧
      st'.temps = st.temps + 1 ∧ st'.symbols = st.symbols.set (numbered "tmp" st.temps) ⟨ty, .automatic⟩ :=
  .get_bind <| .set_bind <| .pure ⟨rfl, rfl, rfl, rfl⟩

theorem Lowering.loopId_ensures (statement : String) (id : Option String) (st : LoweringState) :
    Ensures (Lowering.loopId statement id) st (fun _ => True) fun i st' => id = some i ∧ st' = st := by
  cases id with
  | none => exact .throw trivial
  | some i => exact .pure ⟨rfl, rfl⟩

end Khel.Ir

namespace Khel

open Ir

theorem Expr.recordedTy_ensures (e : Expr) (st : LoweringState) :
    Ensures e.recordedTy st (fun _ => True) fun t st' => e.ty = some t ∧ st' = st := by
  unfold Expr.recordedTy
  split
  · next h => exact .pure ⟨h, rfl⟩
  · exact .throw trivial

/-! ## Expressions -/

mutual
/-- The jumps of an expression stay in its code. -/
theorem Expr.lower_labels : ∀ (e : Expr) (st : LoweringState),
    Ensures e.lower st (fun _ => True) fun r st' => Places st.labels st'.labels [] none r.1
  | .int .., st | .long .., st | .str .., st | .var .., st => by
    rw [Expr.lower]
    exact .pure (.nil _ _)
  | .call note f args, st => by
    rw [Expr.lower]
    refine .bind (Expr.lowerAll_labels args st) ?_
    rintro ⟨code, values⟩ st₁ h
    refine .bind (Expr.recordedTy_ensures _ st₁) ?_
    rintro ty _ ⟨_, rfl⟩
    refine .bind (Lowering.temp_ensures ty _) ?_
    rintro _ st₂ ⟨rfl, h₂, _⟩
    exact .pure (h₂ ▸ h.append_plain rfl rfl)
  | .unary note op a, st => by
    rw [Expr.lower]
    refine .bind (a.lower_labels st) ?_
    rintro ⟨code, src⟩ st₁ h
    refine .bind (Expr.recordedTy_ensures _ st₁) ?_
    rintro ty _ ⟨_, rfl⟩
    refine .bind (Lowering.temp_ensures ty _) ?_
    rintro _ st₂ ⟨rfl, h₂, _⟩
    exact .pure (h₂ ▸ h.append_plain rfl rfl)
  | .binary _ .logicalAnd l r, st => by
    rw [Expr.lower]
    refine .bind (Lowering.label_ensures "and_false" st) ?_
    rintro _ st₁ ⟨rfl, h₁, _⟩
    refine .bind (Lowering.label_ensures "and_end" st₁) ?_
    rintro _ st₂ ⟨rfl, h₂, _⟩
    refine .bind (Lowering.temp_ensures .int32 st₂) ?_
    rintro _ st₃ ⟨rfl, h₃, _⟩
    refine .bind (l.lower_labels st₃) ?_
    rintro ⟨codeL, left⟩ st₄ hl
    refine .bind (r.lower_labels st₄) ?_
    rintro ⟨codeR, right⟩ st₅ hr
    rw [h₃, h₂, h₁] at hl
    rw [h₁]
    refine .pure ((hl.append hr).aroundTwo "and_false" "and_end" (by decide) (by decide) (fun x => ?_) fun t ht => ?_)
    · simp only [labels_andCode, labels_append, List.count_append, List.count_cons, List.count_nil]
      omega
    · simp only [targets_andCode, targets_append, List.mem_append, List.mem_cons, List.not_mem_nil] at ht ⊢
      tauto
  | .binary _ .logicalOr l r, st => by
    rw [Expr.lower]
    refine .bind (Lowering.label_ensures "or_true" st) ?_
    rintro _ st₁ ⟨rfl, h₁, _⟩
    refine .bind (Lowering.label_ensures "or_end" st₁) ?_
    rintro _ st₂ ⟨rfl, h₂, _⟩
    refine .bind (Lowering.temp_ensures .int32 st₂) ?_
    rintro _ st₃ ⟨rfl, h₃, _⟩
    refine .bind (l.lower_labels st₃) ?_
    rintro ⟨codeL, left⟩ st₄ hl
    refine .bind (r.lower_labels st₄) ?_
    rintro ⟨codeR, right⟩ st₅ hr
    rw [h₃, h₂, h₁] at hl
    rw [h₁]
    refine .pure ((hl.append hr).aroundTwo "or_true" "or_end" (by decide) (by decide) (fun x => ?_) fun t ht => ?_)
    · simp only [labels_orCode, labels_append, List.count_append, List.count_cons, List.count_nil]
      omega
    · simp only [targets_orCode, targets_append, List.mem_append, List.mem_cons, List.not_mem_nil] at ht ⊢
      tauto
  | .binary note (.strict op) l r, st => by
    rw [Expr.lower]
    refine .bind (l.lower_labels st) ?_
    rintro ⟨codeL, left⟩ st₁ hl
    refine .bind (r.lower_labels st₁) ?_
    rintro ⟨codeR, right⟩ st₂ hr
    refine .bind (Expr.recordedTy_ensures _ st₂) ?_
    rintro ty _ ⟨_, rfl⟩
    refine .bind (Lowering.temp_ensures ty _) ?_
    rintro _ st₃ ⟨rfl, h₃, _⟩
    exact .pure (h₃ ▸ (hl.append hr).append_plain rfl rfl)
  | .assign _ target value, st => by
    unfold Expr.lower
    split
    · refine .bind (value.lower_labels st) ?_
      rintro ⟨code, src⟩ st₁ h
      exact .pure (h.append_plain rfl rfl)
    · exact .throw trivial
  | .cond note c t f, st => by
    rw [Expr.lower]
    refine .bind (Lowering.label_ensures "cond_else" st) ?_
    rintro _ st₁ ⟨rfl, h₁, _⟩
    refine .bind (Lowering.label_ensures "cond_end" st₁) ?_
    rintro _ st₂ ⟨rfl, h₂, _⟩
    refine .bind (Expr.recordedTy_ensures _ st₂) ?_
    rintro ty _ ⟨_, rfl⟩
    refine .bind (Lowering.temp_ensures ty _) ?_
    rintro _ st₃ ⟨rfl, h₃, _⟩
    refine .bind (c.lower_labels st₃) ?_
    rintro ⟨codeC, test⟩ st₄ hc
    refine .bind (t.lower_labels st₄) ?_
    rintro ⟨codeT, yes⟩ st₅ ht
    refine .bind (f.lower_labels st₅) ?_
    rintro ⟨codeF, no⟩ st₆ hf
    rw [h₃, h₂, h₁] at hc
    rw [h₁]
    refine .pure (((hc.append ht).append hf).aroundTwo "cond_else" "cond_end" (by decide) (by decide) (fun x => ?_)
      fun x hx => ?_)
    · simp only [labels_condCode, labels_append, List.count_append, List.count_cons, List.count_nil]
      omega
    · simp only [targets_condCode, targets_append, List.mem_append, List.mem_cons, List.not_mem_nil] at hx ⊢
      tauto
  | .range note l r, st => by
    rw [Expr.lower]
    refine .bind (l.lower_labels st) ?_
    rintro ⟨codeL, first⟩ st₁ hl
    refine .bind (r.lower_labels st₁) ?_
    rintro ⟨codeR, last⟩ st₂ hr
    refine .bind (Expr.recordedTy_ensures _ st₂) ?_
    rintro ty _ ⟨_, rfl⟩
    refine .bind (Lowering.temp_ensures ty _) ?_
    rintro _ st₃ ⟨rfl, h₃, _⟩
    exact .pure (h₃ ▸ (hl.append hr).append_plain rfl rfl)
  | .cast _ target a, st => by
    rw [Expr.lower]
    refine .bind (a.lower_labels st) ?_
    rintro ⟨code, src⟩ st₁ h
    refine .bind (Expr.recordedTy_ensures _ st₁) ?_
    rintro ty _ ⟨_, rfl⟩
    split
    · refine .bind (Lowering.temp_ensures .int64 _) ?_
      rintro _ st₂ ⟨rfl, h₂, _⟩
      exact .pure (h₂ ▸ h.append_plain rfl rfl)
    · refine .bind (Lowering.temp_ensures .int32 _) ?_
      rintro _ st₂ ⟨rfl, h₂, _⟩
      exact .pure (h₂ ▸ h.append_plain rfl rfl)
    · exact .pure h

theorem Expr.lowerAll_labels : ∀ (es : List Expr) (st : LoweringState),
    Ensures (Expr.lowerAll es) st (fun _ => True) fun r st' => Places st.labels st'.labels [] none r.1
  | [], st => by
    rw [Expr.lowerAll]
    exact .pure (.nil _ _)
  | e :: es, st => by
    rw [Expr.lowerAll]
    refine .bind (e.lower_labels st) ?_
    rintro ⟨code, value⟩ st₁ h
    refine .bind (Expr.lowerAll_labels es st₁) ?_
    rintro ⟨codes, values⟩ st₂ hs
    exact .pure (h.append hs)
end

/-! ## Statements -/

theorem VarDecl.lower_labels (current : Option String) (d : VarDecl) (st : LoweringState) :
    Ensures d.lower st (fun _ => True) fun code st' => Places st.labels st'.labels [] current code := by
  unfold VarDecl.lower
  split
  · next e _ _ =>
    refine .bind (e.lower_labels st) ?_
    rintro ⟨code, src⟩ st₁ h
    exact .pure ((h.append_plain rfl rfl).inLoop current)
  · exact .pure (.nil _ current)

/-- A jump to a label of the loop around it. -/
theorem Ir.Places.jump {n : Nat} {current : Option String} {id l : String} (hid : id ∈ current)
    (hl : l = continueLabel id ∨ l = breakLabel id) : Places n n [] current [.jump l] := by
  refine ⟨Nat.le_refl n, by simp, fun t ht => .inr ⟨id, hid, ?_⟩⟩
  have : t = l := by simpa using ht
  exact this ▸ hl

/-- The type of a loop variable is looked up. -/
theorem Ident.loopTy_ensures (ident : Ident) (st : LoweringState) :
    Ensures ident.loopTy st (fun _ => True) fun t st' =>
      st' = st ∧ ∃ s, st.symbols.get? ident.name = some s ∧ s.ty = t := by
  refine .get_bind ?_
  split
  · next s h => exact .pure ⟨rfl, s, h, rfl⟩
  · exact .throw trivial

mutual
/-- The jumps of a statement stay in its code, or go to the labels of the loop around it. -/
theorem Stmt.lower_labels : ∀ (current : Option String) (s : Stmt) (st : LoweringState), s.Labelled current →
    Ensures s.lower st (fun _ => True) fun code st' => Places st.labels st'.labels s.loopIds current code
  | current, .eval e, st, _ => by
    rw [Stmt.lower]
    refine .bind (e.lower_labels st) ?_
    rintro ⟨code, value⟩ st₁ h
    exact .pure (h.inLoop current)
  | current, .ret none _, st, _ => by
    rw [Stmt.lower]
    exact .pure ((Places.nil _ current).append_plain rfl rfl)
  | current, .ret (some e) _, st, _ => by
    rw [Stmt.lower]
    refine .bind (e.lower_labels st) ?_
    rintro ⟨code, value⟩ st₁ h
    exact .pure ((h.append_plain rfl rfl).inLoop current)
  | current, .ifThen c s, st, hs => by
    rw [Stmt.lower]
    refine .bind (Lowering.label_ensures "if_end" st) ?_
    rintro _ st₁ ⟨rfl, h₁, _⟩
    refine .bind (c.lower_labels st₁) ?_
    rintro ⟨codeC, test⟩ st₂ hc
    refine .bind (s.lower_labels current st₂ hs) ?_
    rintro yes st₃ hy
    rw [h₁] at hc
    refine .pure (((hc.inLoop current).append hy).aroundOne "if_end" (by decide) (fun x => ?_) fun t ht => ?_)
    · simp only [labels_ifThenCode, labels_append, List.count_append]
      omega
    · simp only [targets_ifThenCode, targets_append, List.mem_append, List.mem_cons, List.not_mem_nil] at ht ⊢
      tauto
  | current, .ifElse c s t, st, hs => by
    rw [Stmt.lower]
    refine .bind (Lowering.label_ensures "if_else" st) ?_
    rintro _ st₁ ⟨rfl, h₁, _⟩
    refine .bind (Lowering.label_ensures "if_end" st₁) ?_
    rintro _ st₂ ⟨rfl, h₂, _⟩
    refine .bind (c.lower_labels st₂) ?_
    rintro ⟨codeC, test⟩ st₃ hc
    refine .bind (s.lower_labels current st₃ hs.1) ?_
    rintro yes st₄ hy
    refine .bind (t.lower_labels current st₄ hs.2) ?_
    rintro no st₅ hn
    rw [h₂, h₁] at hc
    rw [h₁]
    refine .pure ((((hc.inLoop current).append hy).append hn).aroundTwo "if_else" "if_end" (by decide) (by decide)
      (fun x => ?_) fun x hx => ?_)
    · simp only [labels_ifElseCode, labels_append, List.count_append]
      omega
    · simp only [targets_ifElseCode, targets_append, List.mem_append, List.mem_cons, List.not_mem_nil] at hx ⊢
      tauto
  | current, .block items, st, hs => by
    rw [Stmt.lower]
    exact lowerItems_labels current items st hs
  | current, .whileLoop c body id, st, hs => by
    rw [Stmt.lower]
    refine .bind (Lowering.loopId_ensures "while" id st) ?_
    rintro i _ ⟨rfl, rfl⟩
    refine .bind (Lowering.label_ensures "while_start" _) ?_
    rintro _ st₁ ⟨rfl, h₁, _⟩
    refine .bind (c.lower_labels st₁) ?_
    rintro ⟨codeC, test⟩ st₂ hc
    refine .bind (lowerItems_labels (some i) body st₂ hs.2) ?_
    rintro code st₃ hb
    rw [h₁] at hc
    refine .pure (((hc.inLoop (some i)).append hb).aroundLoop "while_start" i (by decide) (fun x => ?_) fun t ht => ?_)
    · simp only [labels_whileCode, labels_append, List.count_append, List.count_cons, List.count_nil]
      omega
    · simp only [targets_whileCode, targets_append, List.mem_append, List.mem_cons, List.not_mem_nil] at ht ⊢
      tauto
  | current, .loop var control body id, st, hs => by
    rw [Stmt.lower]
    refine .bind (Lowering.loopId_ensures "loop" id st) ?_
    rintro i _ ⟨rfl, rfl⟩
    refine .bind (Lowering.label_ensures "loop_start" _) ?_
    rintro _ st₁ ⟨rfl, h₁, _⟩
    split
    · next ident _ l r =>
      refine .bind (ident.loopTy_ensures st₁) ?_
      rintro ty _ ⟨rfl, _⟩
      refine .bind (l.lower_labels _) ?_
      rintro ⟨codeL, first⟩ st₂ hl
      refine .bind (r.lower_labels st₂) ?_
      rintro ⟨codeR, last⟩ st₃ hr
      refine .bind (Lowering.temp_ensures .int32 st₃) ?_
      rintro _ st₄ ⟨rfl, h₄, _⟩
      refine .bind (lowerItems_labels (some i) body st₄ hs.2) ?_
      rintro code st₅ hb
      rw [h₁] at hl
      rw [h₄] at hb
      refine .pure ((((hl.append hr).inLoop (some i)).append hb).aroundLoop "loop_start" i (by decide) (fun x => ?_)
        fun t ht => ?_)
      · simp only [labels_rangeCode, labels_append, List.count_append, List.count_cons, List.count_nil]
        omega
      · simp only [targets_rangeCode, targets_append, List.mem_append, List.mem_cons, List.not_mem_nil] at ht ⊢
        tauto
    · refine .bind (control.lower_labels st₁) ?_
      rintro ⟨codeC, test⟩ st₂ hc
      refine .bind (lowerItems_labels (some i) body st₂ hs.2) ?_
      rintro code st₃ hb
      rw [h₁] at hc
      refine .pure (((hc.inLoop (some i)).append hb).aroundLoop "loop_start" i (by decide) (fun x => ?_) fun t ht => ?_)
      · simp only [labels_whileCode, labels_append, List.count_append, List.count_cons, List.count_nil]
        omega
      · simp only [targets_whileCode, targets_append, List.mem_append, List.mem_cons, List.not_mem_nil] at ht ⊢
        tauto
  | current, .leave _ id, st, hs => by
    rw [Stmt.lower]
    refine .bind (Lowering.loopId_ensures "break" id st) ?_
    rintro i _ ⟨rfl, rfl⟩
    exact .pure (.jump (hs.2 ▸ rfl) (.inr rfl))
  | current, .next _ id, st, hs => by
    rw [Stmt.lower]
    refine .bind (Lowering.loopId_ensures "continue" id st) ?_
    rintro i _ ⟨rfl, rfl⟩
    exact .pure (.jump (hs.2 ▸ rfl) (.inl rfl))
  | current, .skip, st, _ => by
    rw [Stmt.lower]
    exact .pure (.nil _ current)

theorem lowerItems_labels : ∀ (current : Option String) (items : List Item) (st : LoweringState),
    itemsLabelled current items →
    Ensures (lowerItems items) st (fun _ => True) fun code st' =>
      Places st.labels st'.labels (itemsLoopIds items) current code
  | current, [], st, _ => by
    rw [lowerItems]
    exact .pure (.nil _ current)
  | current, .stmt s :: rest, st, h => by
    rw [lowerItems]
    refine .bind (s.lower_labels current st h.1) ?_
    rintro code st₁ hs
    refine .bind (lowerItems_labels current rest st₁ h.2) ?_
    rintro codes st₂ hr
    exact .pure (hs.append hr)
  | current, .var d :: rest, st, h => by
    rw [lowerItems]
    refine .bind (d.lower_labels current st) ?_
    rintro code st₁ hd
    refine .bind (lowerItems_labels current rest st₁ h) ?_
    rintro codes st₂ hr
    exact .pure (hd.append hr)
  | _, .fn .. :: _, st, _ => by
    rw [lowerItems]
    exact .throw trivial
end

/-! ## Functions -/

namespace Ir

theorem continueLabel_numbered (stem : String) (n : Nat) :
    continueLabel (numbered stem n) = numbered ("continue." ++ stem) n := by
  simp only [continueLabel, numbered, String.append_assoc]

theorem breakLabel_numbered (stem : String) (n : Nat) :
    breakLabel (numbered stem n) = numbered ("break." ++ stem) n := by
  simp only [breakLabel, numbered, String.append_assoc]

theorem continueLabel_ne_breakLabel (a b : String) : continueLabel a ≠ breakLabel b := by
  intro h
  have hl := congrArg String.toList h
  simp [continueLabel, breakLabel] at hl

theorem continueLabel_injective : Function.Injective continueLabel := by
  intro a b h
  simpa [continueLabel, String.ext_iff] using h

theorem breakLabel_injective : Function.Injective breakLabel := by
  intro a b h
  simpa [breakLabel, String.ext_iff] using h

theorem mem_of_loopRoom_pos {ids : List String} {l : String} (h : 0 < loopRoom ids l) :
    ∃ id ∈ ids, l = continueLabel id ∨ l = breakLabel id := by
  unfold loopRoom at h
  rcases Nat.eq_zero_or_pos ((ids.map continueLabel).count l) with h₁ | h₁
  · obtain ⟨id, hid, rfl⟩ := List.mem_map.1 (List.count_pos_iff.1 (show 0 < (ids.map breakLabel).count l by omega))
    exact ⟨id, hid, .inr rfl⟩
  · obtain ⟨id, hid, rfl⟩ := List.mem_map.1 (List.count_pos_iff.1 h₁)
    exact ⟨id, hid, .inl rfl⟩

theorem loopRoom_le_one {ids : List String} (h : ids.Nodup) (l : String) : loopRoom ids l ≤ 1 := by
  have h₁ := List.nodup_iff_count_le_one.1 (h.map continueLabel_injective) l
  have h₂ := List.nodup_iff_count_le_one.1 (h.map breakLabel_injective) l
  unfold loopRoom
  by_contra hc
  obtain ⟨a, _, ha⟩ := List.mem_map.1 (List.count_pos_iff.1 (show 0 < (ids.map continueLabel).count l by omega))
  obtain ⟨b, _, hb⟩ := List.mem_map.1 (List.count_pos_iff.1 (show 0 < (ids.map breakLabel).count l by omega))
  exact continueLabel_ne_breakLabel a b (ha.trans hb.symm)

/-- Numbers are used once and ids differ, so no label stands twice. -/
theorem Places.nodup {lo hi : Nat} {ids : List String} {current : Option String} {code : List Instr}
    (h : Places lo hi ids current code) (hids : ids.Nodup) (hnum : ∀ id ∈ ids, ∃ stem n, id = numbered stem n) :
    (labels code).Nodup := by
  refine List.nodup_iff_count_le_one.2 fun l => Nat.le_trans (h.room l) ?_
  have hl := loopRoom_le_one hids l
  by_cases hn : ∃ stem n, stem ∈ labelStems ∧ lo ≤ n ∧ n < hi ∧ l = numbered stem n
  · obtain ⟨stem, n, hd, _, _, rfl⟩ := hn
    have hzero : loopRoom ids (numbered stem n) = 0 := by
      by_contra hpos
      obtain ⟨id, hid, he⟩ := mem_of_loopRoom_pos (Nat.pos_of_ne_zero hpos)
      obtain ⟨stem', m, rfl⟩ := hnum id hid
      rw [continueLabel_numbered, breakLabel_numbered, numbered_inj, numbered_inj] at he
      rcases he with ⟨rfl, _⟩ | ⟨rfl, _⟩ <;> exact dotless_of_mem_labelStems _ hd (by simp)
    have : numberedRoom lo hi (numbered stem n) ≤ 1 := by
      unfold numberedRoom
      split <;> omega
    omega
  · have : numberedRoom lo hi l = 0 := if_neg hn
    omega

end Ir

/-- A function with its body. -/
def Decl.definition? : Decl → Option (FnHead × List Item)
  | .fn head (some body) => some (head, body)
  | .fn _ none | .var _ => none

theorem Decl.of_definition? {decl : Decl} {d : FnHead × List Item} (h : decl.definition? = some d) :
    decl = .fn d.1 (some d.2) := by
  cases decl with
  | fn head body =>
    cases body with
    | none => cases h
    | some body =>
      cases h
      rfl
  | var _ => cases h

theorem Decl.mem_of_definition {ds : List Decl} {d : FnHead × List Item} (h : d ∈ ds.filterMap Decl.definition?) :
    .fn d.1 (some d.2) ∈ ds := by
  obtain ⟨decl, hmem, hdef⟩ := List.mem_filterMap.1 h
  rwa [← Decl.of_definition? hdef]

theorem Decl.labelled_definition {ds : List Decl} (hlab : ∀ d ∈ ds, d.Labelled) {d : FnHead × List Item}
    (hd : d ∈ ds.filterMap Decl.definition?) : itemsLabelled none d.2 := hlab _ (Decl.mem_of_definition hd)

/-- The loops of one function of a program. -/
theorem LoopsNumbered.definition {ds : List Decl} (h : LoopsNumbered ds) {d : FnHead × List Item}
    (hd : d ∈ ds.filterMap Decl.definition?) :
    (itemsLoopIds d.2).Nodup ∧ ∀ id ∈ itemsLoopIds d.2, ∃ stem n, id = numbered stem n := by
  obtain ⟨stems, _, hids⟩ := h
  have hsub : (itemsLoopIds d.2).Sublist (ds.flatMap Decl.loopIds) :=
    List.sublist_flatten_of_mem (List.mem_map.2 ⟨_, Decl.mem_of_definition hd, rfl⟩)
  refine ⟨hsub.nodup (hids ▸ nodup_numberFrom 0 stems), fun id hid => ?_⟩
  obtain ⟨x, _, m, _, rfl⟩ := mem_numberFrom (hids ▸ hsub.subset hid)
  exact ⟨x, m, rfl⟩

/-- The function that lowering makes of a definition, and the step that made its code. -/
structure LowersTo (d : FnHead × List Item) (f : Ir.Function) : Prop where
  name : f.name = d.1.ident.name
  params : f.params = d.1.params.map fun p => p.ident.name
  code : ∃ st code st', (lowerItems d.2).run st = .ok (code, st') ∧
    f.code = if itemsHaveReturn d.2 then code else code ++ [.ret (.int 0)]

theorem FnHead.lower_ensures (head : FnHead) (body : List Item) (st : LoweringState) :
    Ensures (head.lower (some body)) st (fun _ => True) fun f _ => LowersTo (head, body) f := by
  rw [FnHead.lower]
  refine .bind (R := fun _ _ => True) (.of_run fun _ _ _ => trivial) fun _ st₁ _ => ?_
  refine .bind (.of_run fun code st₂ h => h) fun code st₂ h => ?_
  exact .pure ⟨rfl, rfl, st₁, code, st₂, h, rfl⟩

/-- Nothing is lowered but functions with a body, so that the fault of a function without one never shows. -/
theorem lowerFunctions_eq : ∀ ds : List Decl,
    lowerFunctions ds = (ds.filterMap Decl.definition?).mapM fun d => d.1.lower (some d.2)
  | [] => rfl
  | .fn head (some body) :: rest => by
    rw [List.filterMap_cons_some (by rfl), List.mapM_cons, ← lowerFunctions_eq rest]
    rfl
  | .fn head none :: rest | .var d :: rest => by
    rw [List.filterMap_cons_none (by rfl), ← lowerFunctions_eq rest]
    rfl

/-- Every function with a body is lowered, in order. -/
theorem lowerFunctions_ensures : ∀ (ds : List Decl) (st : LoweringState),
    Ensures (lowerFunctions ds) st (fun _ => True) fun fs _ => List.Forall₂ LowersTo (ds.filterMap Decl.definition?) fs
  | [], _ => by
    rw [lowerFunctions]
    exact .pure .nil
  | .fn head (some body) :: rest, st => by
    rw [lowerFunctions]
    refine .bind (head.lower_ensures body st) fun f st₁ hf => ?_
    exact .bind (lowerFunctions_ensures rest st₁) fun fs _ hfs => .pure (.cons hf hfs)
  | .fn _ none :: rest, st | .var _ :: rest, st => by
    rw [lowerFunctions]
    exact lowerFunctions_ensures rest st

theorem Program.lower_ensures (p : Program) (T : SymbolTable) :
    Yields (p.lower T) (fun _ => True) fun r =>
      List.Forall₂ LowersTo (p.decls.filterMap Decl.definition?) r.1.functions := by
  unfold Program.lower
  exact .bind (lowerFunctions_ensures p.decls { symbols := T }) fun _ h => .pure h

/-- The lowered functions are those that have a body. -/
theorem names_of_lowersTo {ds : List Decl} {fs : List Ir.Function}
    (h : List.Forall₂ LowersTo (ds.filterMap Decl.definition?) fs) :
    fs.map Ir.Function.name = ds.filterMap Decl.definedName? := by
  have hdef : (ds.filterMap Decl.definition?).map (fun d => d.1.ident.name) = ds.filterMap Decl.definedName? := by
    rw [List.map_filterMap]
    refine List.filterMap_congr fun d _ => ?_
    cases d with
    | fn head body => cases body <;> rfl
    | var _ => rfl
  rw [← hdef, ← List.forall₂_eq_eq_eq, List.forall₂_map_left_iff, List.forall₂_map_right_iff]
  exact h.flip.imp fun _ _ hf => hf.name

/-- In a function no label stands twice, and every jump finds its label. -/
theorem LowersTo.labels {ds : List Decl} (hloops : LoopsNumbered ds) (hlab : ∀ d ∈ ds, d.Labelled)
    {d : FnHead × List Item} (hd : d ∈ ds.filterMap Decl.definition?) {f : Ir.Function} (hf : LowersTo d f) :
    (labels f.code).Nodup ∧ ∀ t ∈ targets f.code, t ∈ labels f.code := by
  obtain ⟨st, code, st', hrun, hcode⟩ := hf.code
  have hplaces := (lowerItems_labels none d.2 st (Decl.labelled_definition hlab hd)).of_ok hrun
  obtain ⟨hnodup, hnum⟩ := hloops.definition hd
  have hall : Places st.labels st'.labels (itemsLoopIds d.2) none f.code := by
    rw [hcode]
    split
    · exact hplaces
    · exact hplaces.append_plain rfl rfl
  refine ⟨hall.nodup hnodup hnum, fun t ht => ?_⟩
  rcases hall.found t ht with h | ⟨_, hid, _⟩
  · exact h
  · cases hid

end Khel
