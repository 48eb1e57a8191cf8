import Khel.Proofs.Analysis
import Khel.Proofs.Ir.Points
import Mathlib.Logic.Relation

/-!
# Paths through a function

A path through a function takes either side of every conditional jump. Where it ends is decided by the source: a
statement is *complete* if control can come out behind it, and control falls off the end of a function exactly if its
body is complete and yet has a return somewhere, for then no return was added at the end.

* `Stmt.lower_leads`: a path comes out behind a statement exactly if the statement is complete, and otherwise only at
  the labels of the loop around it.
* `Program.lower_paths`: every path through a function goes on, ends at a return, or falls off the end, and it can do
  the last exactly as said above.
-/

namespace Khel.Ir

/-! ## Paths -/

/-- Does control go on behind the instruction, at least on one side? -/
def Instr.passes : Instr → Bool
  | .ret _ | .jump _ => false
  | _ => true

/-- One step of control from point to point of the function `code`. -/
inductive Flows (code : List Instr) : List Instr → List Instr → Prop where
  | pass {i : Instr} {rest : List Instr} : i.passes = true → Flows code (i :: rest) rest
  | jump {i : Instr} {rest target : List Instr} {t : String} : i.target? = some t → codeAfter t code = some target →
    Flows code (i :: rest) target

/-- Some path through the function runs past its last instruction. -/
def FallsOff (code : List Instr) : Prop := Relation.ReflTransGen (Flows code) code []

/-- Some path from the point runs past the last instruction in at most `n` steps. -/
def FallsWithin (code : List Instr) : Nat → List Instr → Prop
  | _, [] => True
  | 0, _ :: _ => False
  | n + 1, i :: rest => i.passes = true ∧ FallsWithin code n rest ∨
    ∃ t ∈ i.target?, ∃ target ∈ codeAfter t code, FallsWithin code n target

/-- The same from the point behind a label. -/
def FallsAt (code : List Instr) (n : Nat) (l : String) : Prop := ∃ target ∈ codeAfter l code, FallsWithin code n target

section Falls

variable {full : List Instr} {n m : Nat} {c rest : List Instr} {i : Instr} {l : String}

theorem FallsWithin.succ : ∀ {n : Nat} {c : List Instr}, FallsWithin full n c → FallsWithin full (n + 1) c
  | _, [], _ => trivial
  | _ + 1, _ :: _, .inl ⟨hi, h⟩ => .inl ⟨hi, h.succ⟩
  | _ + 1, _ :: _, .inr ⟨t, ht, target, htarget, h⟩ => .inr ⟨t, ht, target, htarget, h.succ⟩

theorem FallsWithin.mono (h : FallsWithin full n c) (hle : n ≤ m) : FallsWithin full m c := by
  induction hle with
  | refl => exact h
  | step _ ih => exact ih.succ

theorem FallsAt.mono (h : FallsAt full n l) (hle : n ≤ m) : FallsAt full m l := by
  obtain ⟨target, htarget, h⟩ := h
  exact ⟨target, htarget, h.mono hle⟩

/-- A path takes one step at a time. -/
theorem fallsWithin_cons : FallsWithin full n (i :: rest) ↔
    ∃ m, n = m + 1 ∧ (i.passes = true ∧ FallsWithin full m rest ∨ ∃ t, i.target? = some t ∧ FallsAt full m t) := by
  cases n with
  | zero => simp [FallsWithin]
  | succ m => simp [FallsWithin, FallsAt]

/-- Behind a label, wherever it stands. -/
theorem fallsAt_iff (hfull : (labels full).Nodup) (h : .label l :: rest <:+ full) :
    FallsAt full n l ↔ FallsWithin full n rest := by
  unfold FallsAt
  rw [codeAfter_of_suffix hfull h]
  simp

theorem exists_fallsWithin_iff : (∃ n, FallsWithin full n c) ↔ Relation.ReflTransGen (Flows full) c [] := by
  constructor
  · rintro ⟨n, h⟩
    induction n generalizing c with
    | zero =>
      cases c with
      | nil => exact .refl
      | cons i rest => exact h.elim
    | succ n ih =>
      cases c with
      | nil => exact .refl
      | cons i rest =>
        rcases h with ⟨hi, h⟩ | ⟨t, ht, target, htarget, h⟩
        · exact .head (.pass hi) (ih h)
        · exact .head (.jump ht htarget) (ih h)
  · intro h
    induction h using Relation.ReflTransGen.head_induction_on with
    | refl => exact ⟨0, trivial⟩
    | head hstep _ ih =>
      obtain ⟨n, ih⟩ := ih
      cases hstep with
      | pass hi => exact ⟨n + 1, .inl ⟨hi, ih⟩⟩
      | jump ht htarget => exact ⟨n + 1, .inr ⟨_, ht, _, htarget, ih⟩⟩

theorem FallsWithin.plain (h : FallsWithin full n (i :: rest)) (hi : i.target? = none) : FallsWithin full n rest := by
  obtain ⟨m, rfl, ⟨_, h⟩ | ⟨t, ht, _⟩⟩ := fallsWithin_cons.1 h
  · exact h.succ
  · cases hi.symm.trans ht

theorem FallsWithin.branch (h : FallsWithin full n (i :: rest)) (hi : i.target? = some l) :
    FallsWithin full n rest ∨ FallsAt full n l := by
  obtain ⟨m, rfl, ⟨_, h⟩ | ⟨t, ht, h⟩⟩ := fallsWithin_cons.1 h
  · exact .inl h.succ
  · cases hi.symm.trans ht
    exact .inr (h.mono (Nat.le_succ m))

/-- A jump takes a step of its own, on which the induction over the rounds of a loop rests. -/
theorem FallsWithin.jump (h : FallsWithin full n (.jump l :: rest)) : ∃ m < n, FallsAt full m l := by
  obtain ⟨m, rfl, ⟨hp, _⟩ | ⟨t, ht, h⟩⟩ := fallsWithin_cons.1 h
  · cases hp
  · cases ht
    exact ⟨m, Nat.lt_succ_self m, h⟩

theorem FallsWithin.not_ret {v : Value} : ¬ FallsWithin full n (.ret v :: rest) := by
  intro h
  obtain ⟨m, rfl, ⟨hp, _⟩ | ⟨t, ht, _⟩⟩ := fallsWithin_cons.1 h
  · cases hp
  · cases ht

end Falls

/-! ## Pieces of code -/

/-- A piece of code in the loop `current`: a path comes out behind it if it is complete, and otherwise only at the
labels of that loop. -/
structure Leads (current : Option String) (complete : Bool) (code : List Instr) : Prop where
  back : ∀ {full rest : List Instr} {n : Nat}, (labels full).Nodup → code ++ rest <:+ full →
    FallsWithin full n (code ++ rest) → complete = true ∧ FallsWithin full n rest ∨
      ∃ id ∈ current, FallsAt full n (continueLabel id) ∨ FallsAt full n (breakLabel id)
  forth : ∀ {full rest : List Instr}, (labels full).Nodup → code ++ rest <:+ full → complete = true →
    Relation.ReflTransGen (Flows full) (code ++ rest) rest

namespace Leads

variable {current : Option String} {a b : Bool} {code more : List Instr}

theorem nil (current : Option String) : Leads current true [] := ⟨fun _ _ h => .inl ⟨rfl, h⟩, fun _ _ _ => .refl⟩

theorem plain {i : Instr} (current : Option String) (hp : i.passes = true) (ht : i.target? = none) :
    Leads current true [i] :=
  ⟨fun _ _ h => .inl ⟨rfl, h.plain ht⟩, fun _ _ _ => .single (.pass hp)⟩

theorem ret (current : Option String) (v : Value) : Leads current false [.ret v] :=
  ⟨fun _ _ h => (h.not_ret).elim, fun _ _ h => by cases h⟩

/-- One piece after the other. -/
theorem append (h : Leads current a code) (h' : Leads current b more) : Leads current (a && b) (code ++ more) := by
  constructor
  · intro full rest n hfull hs hf
    rw [List.append_assoc] at hs hf
    rcases h.back hfull hs hf with ⟨ha, hf⟩ | hf
    · rcases h'.back hfull (suffix_right hs) hf with ⟨hb, hf⟩ | hf
      · exact .inl ⟨by rw [ha, hb]; rfl, hf⟩
      · exact .inr hf
    · exact .inr hf
  · intro full rest hfull hs hc
    rw [List.append_assoc] at hs ⊢
    rw [Bool.and_eq_true] at hc
    exact (h.forth hfull hs hc.1).trans (h'.forth hfull (suffix_right hs) hc.2)

/-- Code in no loop may stand in any. -/
theorem inLoop (h : Leads none a code) (current : Option String) : Leads current a code := by
  refine ⟨fun hfull hs hf => ?_, h.forth⟩
  rcases h.back hfull hs hf with hf | ⟨_, hid, _⟩
  · exact .inl hf
  · cases hid

/-- A path through complete code in no loop comes out behind it. -/
theorem through (h : Leads none true code) {full rest : List Instr} {n : Nat} (hfull : (labels full).Nodup)
    (hs : code ++ rest <:+ full) (hf : FallsWithin full n (code ++ rest)) : FallsWithin full n rest := by
  rcases h.back hfull hs hf with ⟨_, hf⟩ | ⟨_, hid, _⟩
  · exact hf
  · cases hid

/-- A jump to a label of the loop around it. -/
theorem jump {id l : String} (hid : id ∈ current) (hl : l = continueLabel id ∨ l = breakLabel id) :
    Leads current false [.jump l] := by
  refine ⟨fun _ _ hf => .inr ⟨id, hid, ?_⟩, fun _ _ h => by cases h⟩
  obtain ⟨m, hm, hf⟩ := hf.jump
  have hf := hf.mono (Nat.le_of_lt hm)
  rcases hl with rfl | rfl
  · exact .inl hf
  · exact .inr hf

section Layouts

variable {start loop isFalse isTrue done : String} {left right test first last yes no : List Instr × Value}
  {body other : List Instr} {dst var one : Value}

/-- Both logical operators: two branches `i` and `j` to the same label. -/
theorem shortCircuit {i j : Instr} {x y : Value} (hi : i.target? = some isFalse) (hj : j.target? = some isFalse)
    (hl : Leads none true left.1) (hr : Leads none true right.1) :
    Leads none true (left.1 ++ i :: right.1 ++
      [j, .copy x dst, .jump done, .label isFalse, .copy y dst, .label done]) := by
  have happ : ∀ rest, left.1 ++ i :: right.1 ++
      [j, .copy x dst, .jump done, .label isFalse, .copy y dst, .label done] ++ rest =
      left.1 ++ (i :: (right.1 ++ (j :: .copy x dst :: .jump done :: .label isFalse :: .copy y dst ::
        .label done :: rest))) := by
    simp
  constructor
  · intro full rest n hfull hs hf
    rw [happ] at hs hf
    have hs₁ := suffix_tail (suffix_right hs)
    have hs₂ := suffix_tail (suffix_tail (suffix_tail (suffix_right hs₁)))
    have hfalse : FallsAt full n isFalse → FallsWithin full n rest := fun h =>
      (((fallsAt_iff hfull hs₂).1 h).plain rfl).plain rfl
    have hdone : FallsAt full n done → FallsWithin full n rest :=
      (fallsAt_iff hfull (suffix_tail (suffix_tail hs₂))).1
    refine .inl ⟨rfl, ?_⟩
    rcases (hl.through hfull hs hf).branch hi with hf | hf
    · rcases (hr.through hfull hs₁ hf).branch hj with hf | hf
      · obtain ⟨m, hm, hf⟩ := (hf.plain rfl).jump
        exact hdone (hf.mono (Nat.le_of_lt hm))
      · exact hfalse hf
    · exact hfalse hf
  · intro full rest hfull hs _
    rw [happ] at hs ⊢
    have hs₁ := suffix_tail (suffix_right hs)
    have hs₂ := suffix_tail (suffix_tail (suffix_tail (suffix_right hs₁)))
    refine (hl.forth hfull hs rfl).trans (.head (.jump hi (codeAfter_of_suffix hfull hs₂)) ?_)
    exact .head (.pass rfl) (.single (.pass rfl))

theorem cond (hc : Leads none true test.1) (hy : Leads none true yes.1) (hn : Leads none true no.1) :
    Leads none true (condCode isFalse done test yes no dst) := by
  constructor
  · intro full rest n hfull hs hf
    rw [condCode_append] at hs hf
    have hs₁ := suffix_tail (suffix_right hs)
    have hs₂ := suffix_tail (suffix_tail (suffix_right hs₁))
    have hs₃ := suffix_tail (suffix_right (suffix_tail hs₂))
    refine .inl ⟨rfl, ?_⟩
    rcases (hc.through hfull hs hf).branch rfl with hf | hf
    · obtain ⟨m, hm, hf⟩ := ((hy.through hfull hs₁ hf).plain rfl).jump
      exact (fallsAt_iff hfull hs₃).1 (hf.mono (Nat.le_of_lt hm))
    · have hf := (fallsAt_iff hfull hs₂).1 hf
      exact ((hn.through hfull (suffix_tail hs₂) hf).plain rfl).plain rfl
  · intro full rest hfull hs _
    rw [condCode_append] at hs ⊢
    have hs₁ := suffix_tail (suffix_right hs)
    have hs₂ := suffix_tail (suffix_tail (suffix_right hs₁))
    refine (hc.forth hfull hs rfl).trans (.head (.jump rfl (codeAfter_of_suffix hfull hs₂)) ?_)
    exact (hn.forth hfull (suffix_tail hs₂) rfl).trans (.head (.pass rfl) (.single (.pass rfl)))

theorem ifThen (hc : Leads none true test.1) (hb : Leads current a body) :
    Leads current true (ifThenCode done test body) := by
  constructor
  · intro full rest n hfull hs hf
    rw [ifThenCode_append] at hs hf
    have hs₁ := suffix_tail (suffix_right hs)
    rcases (hc.through hfull hs hf).branch rfl with hf | hf
    · rcases hb.back hfull hs₁ hf with ⟨_, hf⟩ | hf
      · exact .inl ⟨rfl, hf.plain rfl⟩
      · exact .inr hf
    · exact .inl ⟨rfl, (fallsAt_iff hfull (suffix_right hs₁)).1 hf⟩
  · intro full rest hfull hs _
    rw [ifThenCode_append] at hs ⊢
    have hs₁ := suffix_right (suffix_tail (suffix_right hs))
    exact (hc.forth hfull hs rfl).trans (.single (.jump rfl (codeAfter_of_suffix hfull hs₁)))

theorem ifElse (hc : Leads none true test.1) (hb : Leads current a body) (ho : Leads current b other) :
    Leads current (a || b) (ifElseCode isFalse done test body other) := by
  constructor
  · intro full rest n hfull hs hf
    rw [ifElseCode_append] at hs hf
    have hs₁ := suffix_tail (suffix_right hs)
    have hs₂ := suffix_tail (suffix_right hs₁)
    have hs₃ := suffix_right (suffix_tail hs₂)
    rcases (hc.through hfull hs hf).branch rfl with hf | hf
    · rcases hb.back hfull hs₁ hf with ⟨ha, hf⟩ | hf
      · obtain ⟨m, hm, hf⟩ := hf.jump
        exact .inl ⟨by rw [ha]; rfl, (fallsAt_iff hfull hs₃).1 (hf.mono (Nat.le_of_lt hm))⟩
      · exact .inr hf
    · rcases ho.back hfull (suffix_tail hs₂) ((fallsAt_iff hfull hs₂).1 hf) with ⟨hb, hf⟩ | hf
      · exact .inl ⟨by rw [hb, Bool.or_true], hf.plain rfl⟩
      · exact .inr hf
  · intro full rest hfull hs hab
    rw [ifElseCode_append] at hs ⊢
    have hs₁ := suffix_tail (suffix_right hs)
    have hs₂ := suffix_tail (suffix_right hs₁)
    have hs₃ := suffix_right (suffix_tail hs₂)
    refine (hc.forth hfull hs rfl).trans ?_
    rcases Bool.or_eq_true_iff.1 hab with ha | hb'
    · refine .head (.pass rfl) ((hb.forth hfull hs₁ ha).trans ?_)
      exact .single (.jump rfl (codeAfter_of_suffix hfull hs₃))
    · refine .head (.jump rfl (codeAfter_of_suffix hfull hs₂)) ?_
      exact (ho.forth hfull (suffix_tail hs₂) hb').trans (.single (.pass rfl))

/-- A loop is always complete, since its test may fail. What follows a round of it is in `tail`. -/
theorem rounds {loop : String} {test body tail : List Instr} {v : Value} {full rest : List Instr}
    (hfull : (labels full).Nodup)
    (hs : .label start :: (test ++ (.jumpIfZero v (breakLabel loop) :: (body ++ (.label (continueLabel loop) ::
      (tail ++ (.jump start :: .label (breakLabel loop) :: rest)))))) <:+ full)
    (hc : Leads none true test) (hb : Leads (some loop) a body) (ht : Leads none true tail) : ∀ n : Nat,
    FallsWithin full n (test ++ (.jumpIfZero v (breakLabel loop) :: (body ++ (.label (continueLabel loop) ::
      (tail ++ (.jump start :: .label (breakLabel loop) :: rest)))))) → FallsWithin full n rest := by
  have hs₁ := suffix_tail (suffix_right (suffix_tail hs))
  have hs₂ := suffix_right hs₁
  have hs₃ := suffix_tail (suffix_right (suffix_tail hs₂))
  intro n
  -- The number of steps that are left goes down with every round.
  induction n using Nat.strongRecOn with
  | ind n ih =>
    intro hf
    have hround : FallsWithin full n (tail ++ (.jump start :: .label (breakLabel loop) :: rest)) →
        FallsWithin full n rest := by
      intro hf
      obtain ⟨m, hm, hf⟩ := (ht.through hfull (suffix_tail hs₂) hf).jump
      exact (ih m hm ((fallsAt_iff hfull hs).1 hf)).mono (Nat.le_of_lt hm)
    rcases (hc.through hfull (suffix_tail hs) hf).branch rfl with hf | hf
    · rcases hb.back hfull hs₁ hf with ⟨_, hf⟩ | ⟨id, hid, hf⟩
      · exact hround (hf.plain rfl)
      · cases hid
        rcases hf with hf | hf
        · exact hround ((fallsAt_iff hfull hs₂).1 hf)
        · exact (fallsAt_iff hfull hs₃).1 hf
    · exact (fallsAt_iff hfull hs₃).1 hf

theorem whileLoop (hc : Leads none true test.1) (hb : Leads (some loop) a body) :
    Leads current true (whileCode start loop test body) := by
  constructor
  · intro full rest n hfull hs hf
    rw [whileCode_append] at hs hf
    exact .inl ⟨rfl, Leads.rounds hfull hs hc hb (.nil none) n (hf.plain rfl)⟩
  · intro full rest hfull hs _
    rw [whileCode_append] at hs ⊢
    have hs₁ := suffix_tail (suffix_right (suffix_tail hs))
    have hs₂ := suffix_tail (suffix_tail (suffix_right hs₁))
    refine .head (.pass rfl) ((hc.forth hfull (suffix_tail hs) rfl).trans ?_)
    exact .single (.jump rfl (codeAfter_of_suffix hfull hs₂))

theorem rangeLoop (hf : Leads none true first.1) (hl : Leads none true last.1) (hb : Leads (some loop) a body) :
    Leads current true (rangeCode start loop var one dst first last body) := by
  have hl := hl.append (.plain (i := .binary (.compare .le) var last.2 dst) none rfl rfl)
  have happ : ∀ rest, rangeCode start loop var one dst first last body ++ rest =
      first.1 ++ (.copy first.2 var :: .label start :: ((last.1 ++ [.binary (.compare .le) var last.2 dst]) ++
        (.jumpIfZero dst (breakLabel loop) :: (body ++ (.label (continueLabel loop) ::
        ([.binary (.arith .add) var one var] ++ (.jump start :: .label (breakLabel loop) :: rest))))))) := by
    simp [rangeCode_append]
  constructor
  · intro full rest n hfull hs h
    rw [happ] at hs h
    have h := ((hf.through hfull hs h).plain rfl).plain rfl
    exact .inl ⟨rfl, Leads.rounds hfull (suffix_tail (suffix_right hs)) hl hb (.plain none rfl rfl) n h⟩
  · intro full rest hfull hs _
    rw [happ] at hs ⊢
    have hs₁ := suffix_tail (suffix_tail (suffix_right hs))
    have hs₂ := suffix_right (suffix_tail (suffix_right (suffix_tail (suffix_right hs₁))))
    refine (hf.forth hfull hs rfl).trans (.head (.pass rfl) (.head (.pass rfl) ?_))
    exact (hl.forth hfull hs₁ rfl).trans (.single (.jump rfl (codeAfter_of_suffix hfull (suffix_tail hs₂))))

end Layouts

end Leads

end Khel.Ir

namespace Khel

open Ir

/-! ## Lowered code -/

mutual
/-- Can control come out behind the statement, if every test may go either way? -/
def Stmt.isComplete : Stmt → Bool
  | .ret .. | .leave .. | .next .. => false
  | .ifElse _ s t => s.isComplete || t.isComplete
  | .block items => itemsAreComplete items
  | .eval _ | .ifThen .. | .whileLoop .. | .loop .. | .skip => true

/-- Can control come out behind the items? -/
def itemsAreComplete : List Item → Bool
  | [] => true
  | .stmt s :: rest => s.isComplete && itemsAreComplete rest
  | .var _ :: rest => itemsAreComplete rest
  | .fn .. :: rest => itemsAreComplete rest
end

mutual
/-- A path comes out behind an expression. -/
theorem Expr.lower_leads : ∀ (e : Expr) (st : LoweringState),
    Ensures e.lower st (fun _ => True) fun r _ => Leads none true r.1
  | .int .., st | .long .., st | .str .., st | .var .., st => by
    rw [Expr.lower]
    exact .pure (.nil none)
  | .call note f args, st => by
    rw [Expr.lower]
    refine .bind (Expr.lowerAll_leads args st) fun r st₁ h => ?_
    refine .bind (.any _ st₁) fun ty st₂ _ => .bind (.any _ st₂) fun dst _ _ => ?_
    exact .pure (h.append (.plain none rfl rfl))
  | .unary note op a, st => by
    rw [Expr.lower]
    refine .bind (a.lower_leads st) fun r st₁ h => ?_
    refine .bind (.any _ st₁) fun ty st₂ _ => .bind (.any _ st₂) fun dst _ _ => ?_
    exact .pure (h.append (.plain none rfl rfl))
  | .binary _ .logicalAnd l r, st => by
    rw [Expr.lower]
    refine .bind (.any _ st) fun isFalse st₁ _ => .bind (.any _ st₁) fun done st₂ _ => ?_
    refine .bind (.any _ st₂) fun dst st₃ _ => ?_
    refine .bind (l.lower_leads st₃) fun left st₄ hl => .bind (r.lower_leads st₄) fun right _ hr => ?_
    exact .pure (.shortCircuit rfl rfl hl hr)
  | .binary _ .logicalOr l r, st => by
    rw [Expr.lower]
    refine .bind (.any _ st) fun isTrue st₁ _ => .bind (.any _ st₁) fun done st₂ _ => ?_
    refine .bind (.any _ st₂) fun dst st₃ _ => ?_
    refine .bind (l.lower_leads st₃) fun left st₄ hl => .bind (r.lower_leads st₄) fun right _ hr => ?_
    exact .pure (.shortCircuit rfl rfl hl hr)
  | .binary note (.strict op) l r, st => by
    rw [Expr.lower]
    refine .bind (l.lower_leads st) fun left st₁ hl => .bind (r.lower_leads st₁) fun right st₂ hr => ?_
    refine .bind (.any _ st₂) fun ty st₃ _ => .bind (.any _ st₃) fun dst _ _ => ?_
    exact .pure ((hl.append hr).append (.plain none rfl rfl))
  | .assign _ target value, st => by
    unfold Expr.lower
    split
    · refine .bind (value.lower_leads st) fun r _ h => ?_
      exact .pure (h.append (.plain none rfl rfl))
    · exact .throw trivial
  | .cond note c t f, st => by
    rw [Expr.lower]
    refine .bind (.any _ st) fun isFalse st₁ _ => .bind (.any _ st₁) fun done st₂ _ => ?_
    refine .bind (.any _ st₂) fun ty st₃ _ => .bind (.any _ st₃) fun dst st₄ _ => ?_
    refine .bind (c.lower_leads st₄) fun test st₅ hc => ?_
    refine .bind (t.lower_leads st₅) fun yes st₆ ht => .bind (f.lower_leads st₆) fun no _ hf => ?_
    exact .pure (.cond hc ht hf)
  | .range note l r, st => by
    rw [Expr.lower]
    refine .bind (l.lower_leads st) fun first st₁ hl => .bind (r.lower_leads st₁) fun last st₂ hr => ?_
    refine .bind (.any _ st₂) fun ty st₃ _ => .bind (.any _ st₃) fun dst _ _ => ?_
    exact .pure ((hl.append hr).append ((Leads.plain none rfl rfl).append (.plain none rfl rfl)))
  | .cast _ target a, st => by
    rw [Expr.lower]
    refine .bind (a.lower_leads st) fun r st₁ h => .bind (.any _ st₁) fun ty st₂ _ => ?_
    split
    · exact .bind (.any _ st₂) fun dst _ _ => .pure (h.append (.plain none rfl rfl))
    · exact .bind (.any _ st₂) fun dst _ _ => .pure (h.append (.plain none rfl rfl))
    · exact .pure h

theorem Expr.lowerAll_leads : ∀ (es : List Expr) (st : LoweringState),
    Ensures (Expr.lowerAll es) st (fun _ => True) fun r _ => Leads none true r.1
  | [], st => by
    rw [Expr.lowerAll]
    exact .pure (.nil none)
  | e :: es, st => by
    rw [Expr.lowerAll]
    refine .bind (e.lower_leads st) fun r st₁ h => .bind (Expr.lowerAll_leads es st₁) fun rs _ hs => ?_
    exact .pure (h.append hs)
end

theorem VarDecl.lower_leads (current : Option String) (d : VarDecl) (st : LoweringState) :
    Ensures d.lower st (fun _ => True) fun code _ => Leads current true code := by
  unfold VarDecl.lower
  split
  · next e _ _ =>
    refine .bind (e.lower_leads st) fun r _ h => ?_
    exact .pure ((h.append (.plain none rfl rfl)).inLoop current)
  · exact .pure (.nil current)

mutual
/-- A path comes out behind a statement exactly if the statement is complete. -/
theorem Stmt.lower_leads : ∀ (current : Option String) (s : Stmt) (st : LoweringState), s.Labelled current →
    Ensures s.lower st (fun _ => True) fun code _ => Leads current s.isComplete code
  | current, .eval e, st, _ => by
    rw [Stmt.lower]
    exact .bind (e.lower_leads st) fun r _ h => .pure (h.inLoop current)
  | current, .ret none _, st, _ => by
    rw [Stmt.lower]
    exact .pure (.ret current _)
  | current, .ret (some e) _, st, _ => by
    rw [Stmt.lower]
    refine .bind (e.lower_leads st) fun r _ h => ?_
    exact .pure ((h.inLoop current).append (.ret current r.2))
  | current, .ifThen c s, st, hs => by
    rw [Stmt.lower]
    refine .bind (.any _ st) fun done st₁ _ => .bind (c.lower_leads st₁) fun test st₂ hc => ?_
    exact .bind (s.lower_leads current st₂ hs) fun yes _ hy => .pure (.ifThen hc hy)
  | current, .ifElse c s t, st, hs => by
    rw [Stmt.lower]
    refine .bind (.any _ st) fun isFalse st₁ _ => .bind (.any _ st₁) fun done st₂ _ => ?_
    refine .bind (c.lower_leads st₂) fun test st₃ hc => .bind (s.lower_leads current st₃ hs.1) fun yes st₄ hy => ?_
    exact .bind (t.lower_leads current st₄ hs.2) fun no _ hn => .pure (.ifElse hc hy hn)
  | current, .block items, st, hs => by
    rw [Stmt.lower]
    exact lowerItems_leads current items st hs
  | current, .whileLoop c body id, st, hs => by
    rw [Stmt.lower]
    refine .bind (Lowering.loopId_ensures "while" id st) ?_
    rintro i _ ⟨rfl, rfl⟩
    refine .bind (.any _ _) fun start st₁ _ => .bind (c.lower_leads st₁) fun test st₂ hc => ?_
    exact .bind (lowerItems_leads (some i) body st₂ hs.2) fun code _ hb => .pure (.whileLoop hc hb)
  | current, .loop var control body id, st, hs => by
    rw [Stmt.lower]
    refine .bind (Lowering.loopId_ensures "loop" id st) ?_
    rintro i _ ⟨rfl, rfl⟩
    refine .bind (.any _ _) fun start st₁ _ => ?_
    split
    · next ident _ l r =>
      refine .bind (.any _ st₁) fun ty st₂ _ => .bind (l.lower_leads st₂) fun first st₃ hl => ?_
      refine .bind (r.lower_leads st₃) fun last st₄ hr => .bind (.any _ st₄) fun inRange st₅ _ => ?_
      exact .bind (lowerItems_leads (some i) body st₅ hs.2) fun code _ hb => .pure (.rangeLoop hl hr hb)
    · refine .bind (control.lower_leads st₁) fun test st₂ hc => ?_
      exact .bind (lowerItems_leads (some i) body st₂ hs.2) fun code _ hb => .pure (.whileLoop hc hb)
  | current, .leave _ id, st, hs => by
    rw [Stmt.lower]
    refine .bind (Lowering.loopId_ensures "break" id st) ?_
    rintro i _ ⟨rfl, rfl⟩
    exact .pure (.jump (hs.2 ▸ rfl) (.inr rfl))
  | current, .next _ id, st, hs => by
    rw [Stmt.lower]
    refine .bind (Lowering.loopId_ensures "continue" id st) ?_
    rintro i _ ⟨rfl, rfl⟩
    exact .pure (.jump (hs.2 ▸ rfl) (.inl rfl))
  | current, .skip, st, _ => by
    rw [Stmt.lower]
    exact .pure (.nil current)

theorem lowerItems_leads : ∀ (current : Option String) (items : List Item) (st : LoweringState),
    itemsLabelled current items →
    Ensures (lowerItems items) st (fun _ => True) fun code _ => Leads current (itemsAreComplete items) code
  | current, [], st, _ => by
    rw [lowerItems]
    exact .pure (.nil current)
  | current, .stmt s :: rest, st, h => by
    rw [lowerItems]
    refine .bind (s.lower_leads current st h.1) fun code st₁ hs => ?_
    exact .bind (lowerItems_leads current rest st₁ h.2) fun codes _ hr => .pure (hs.append hr)
  | current, .var d :: rest, st, h => by
    rw [lowerItems]
    refine .bind (d.lower_leads current st) fun code st₁ hd => ?_
    exact .bind (lowerItems_leads current rest st₁ h) fun codes _ hr => .pure (hd.append hr)
  | _, .fn .. :: _, st, _ => by
    rw [lowerItems]
    exact .throw trivial
end

/-! ## Functions -/

namespace Ir

/-- Control stays inside the function. -/
theorem Flows.suffix {code point next : List Instr} (h : Flows code point next) (hs : point <:+ code) :
    next <:+ code := by
  cases h with
  | pass _ => exact suffix_tail hs
  | jump _ htarget => exact codeAfter_suffix htarget

/-- Where every jump finds its label, a path ends at a return or at the end. -/
theorem Flows.progress {code point : List Instr} (hfound : ∀ t ∈ targets code, t ∈ labels code)
    (h : Relation.ReflTransGen (Flows code) code point) :
    point = [] ∨ (∃ v rest, point = .ret v :: rest) ∨ ∃ next, Flows code point next := by
  have hs : point <:+ code := by
    induction h with
    | refl => exact List.suffix_rfl
    | tail _ hstep ih => exact hstep.suffix ih
  have hjump : ∀ {i : Instr} {rest : List Instr} {t : String}, i :: rest <:+ code → i.target? = some t →
      ∃ next, Flows code (i :: rest) next := by
    intro i rest t hs ht
    have hmem : t ∈ targets code := List.mem_filterMap.2 ⟨i, hs.subset (List.mem_cons_self ..), ht⟩
    obtain ⟨target, htarget⟩ := exists_codeAfter (hfound t hmem)
    exact ⟨target, .jump ht htarget⟩
  cases point with
  | nil => exact .inl rfl
  | cons i rest =>
    cases i with
    | ret v => exact .inr (.inl ⟨v, rest, rfl⟩)
    | jump t => exact .inr (.inr (hjump hs rfl))
    | _ => exact .inr (.inr ⟨rest, .pass rfl⟩)

/-- Code that is a whole function. -/
theorem Leads.fallsOff_iff {complete : Bool} {code : List Instr} (h : Leads none complete code)
    (hnodup : (labels code).Nodup) : FallsOff code ↔ complete = true := by
  have hs : code ++ [] <:+ code := by simp
  constructor
  · intro hf
    obtain ⟨n, hf⟩ := exists_fallsWithin_iff.2 hf
    have hf : FallsWithin code n (code ++ []) := by simpa using hf
    rcases h.back hnodup hs hf with ⟨hc, _⟩ | ⟨_, hid, _⟩
    · exact hc
    · cases hid
  · intro hc
    have hpath := h.forth hnodup hs hc
    rwa [List.append_nil] at hpath

end Ir

theorem LowersTo.fallsOff_iff {d : FnHead × List Item} {f : Ir.Function} (hf : LowersTo d f)
    (hnodup : (Ir.labels f.code).Nodup) (hlab : itemsLabelled none d.2) :
    FallsOff f.code ↔ itemsHaveReturn d.2 = true ∧ itemsAreComplete d.2 = true := by
  obtain ⟨st, code, st', hrun, hcode⟩ := hf.code
  have hleads := (lowerItems_leads none d.2 st hlab).of_ok hrun
  rw [hcode] at hnodup ⊢
  split
  · next hret =>
    rw [if_pos hret] at hnodup
    rw [hleads.fallsOff_iff hnodup]
    exact ⟨fun hc => ⟨hret, hc⟩, fun h => h.2⟩
  · next hret =>
    rw [if_neg hret] at hnodup
    rw [(hleads.append (.ret none _)).fallsOff_iff hnodup]
    simp [hret]

/-- Every path through a function of an accepted program goes on, ends at a return or falls off the end, and there is
one that falls off the end exactly if the body has a return and is complete all the same. -/
theorem Program.lower_paths {p q : Program} {T T' : SymbolTable} {ir : Ir.Program} (ha : p.analyze = .ok (q, T))
    (hl : q.lower T = .ok (ir, T')) :
    List.Forall₂ (fun d f =>
        (FallsOff f.code ↔ itemsHaveReturn d.2 = true ∧ itemsAreComplete d.2 = true) ∧
        ∀ point, Relation.ReflTransGen (Flows f.code) f.code point →
          point = [] ∨ (∃ v rest, point = .ret v :: rest) ∨ ∃ next, Flows f.code point next)
      (q.decls.filterMap Decl.definition?) ir.functions := by
  obtain ⟨hloops, hlab⟩ := p.analyze_loops.of_ok ha
  have hlower := (q.lower_ensures T).of_ok hl
  rw [List.forall₂_iff_zip] at hlower ⊢
  refine ⟨hlower.1, fun {d f} hzip => ?_⟩
  have hd := (List.of_mem_zip hzip).1
  have hf := hlower.2 hzip
  obtain ⟨hnodup, hfound⟩ := hf.labels hloops hlab hd
  exact ⟨hf.fallsOff_iff hnodup (Decl.labelled_definition hlab hd), fun _ hpath => Flows.progress hfound hpath⟩

/-- A function that returns one if its parameter is not zero, and then says nothing more. -/
def earlyReturn (a : String) (ty : Option Ty) : Program :=
  ⟨[.fn ⟨⟨"f", .nowhere⟩, [⟨⟨a, .nowhere⟩, .int⟩], .int, true, false⟩
    (some [.stmt (.ifThen (.var { ty } a) (.ret (some (.int { ty } 1)) .nowhere))])]⟩

/-- What is known of the names of that program. -/
def earlyReturnSymbols : SymbolTable :=
  ⟨[("f", ⟨.fn [.int32] .int32, .function true true⟩), ("a.0", ⟨.int32, .automatic⟩)]⟩

/-- The code of that program. -/
def earlyReturnCode : Ir.Program :=
  { functions := [⟨"f", true, ["a.0"], [.jumpIfZero (.var "a.0") "if_end.0", .ret (.int 1), .label "if_end.0"]⟩] }

theorem earlyReturn_analyze :
    (earlyReturn "a" none).analyze = .ok (earlyReturn "a.0" (some .int32), earlyReturnSymbols) := rfl

theorem earlyReturn_lower :
    (earlyReturn "a.0" (some .int32)).lower earlyReturnSymbols = .ok (earlyReturnCode, earlyReturnSymbols) := rfl

/-- The condition is met: the function has a return and is complete. -/
theorem earlyReturn_paths : List.Forall₂ (fun d f =>
      (FallsOff f.code ↔ itemsHaveReturn d.2 = true ∧ itemsAreComplete d.2 = true) ∧
      ∀ point, Relation.ReflTransGen (Flows f.code) f.code point →
        point = [] ∨ (∃ v rest, point = .ret v :: rest) ∨ ∃ next, Flows f.code point next)
    ((earlyReturn "a.0" (some .int32)).decls.filterMap Decl.definition?) earlyReturnCode.functions :=
  Program.lower_paths earlyReturn_analyze earlyReturn_lower

/-- A path through an accepted program falls off the end of a function: the test fails, and nothing follows. -/
theorem earlyReturn_fallsOff : ∃ p q : Program, ∃ T T' : SymbolTable, ∃ ir : Ir.Program, ∃ f ∈ ir.functions,
    p.analyze = .ok (q, T) ∧ q.lower T = .ok (ir, T') ∧ FallsOff f.code := by
  refine ⟨_, _, _, _, _, _, List.mem_singleton.2 rfl, earlyReturn_analyze, earlyReturn_lower, ?_⟩
  exact .single (.jump rfl rfl)

end Khel
