import Khel.Proofs.Ir.Simulation
import Khel.Proofs.Program.LoopBodies

/-!
# Loops through a range

A loop from one constant to another runs its body once for each number between them, in order, and then goes on behind
its end. The last number is the one exception: if it is the greatest number of the type, then counting it up gives the
least one, which has not passed the end, and so the body is run again and the loop is never left.

* `Ir.Visits`: runs, with the values of the variable at each entry of the body.
* `Ir.Step.within`: code that stands alone takes the same steps within a function.
* `Ir.RangeLoop`: the pieces of the code of a loop, and the points that control comes to.
* `Ir.RangeLoop.visits_rounds`: the rounds of a loop, by induction on their number.
* `Stmt.lower_visits`: what a loop through a range comes to.
-/

namespace Khel

/-! ## Numbers of a width -/

/-- The greatest value of the type. -/
def Ty.greatest (t : Ty) : Int := 2 ^ (t.bits - 1) - 1

theorem Ty.bits_eq (t : Ty) : t.bits = 32 ∨ t.bits = 64 := by
  cases t <;> simp [Ty.bits]

theorem Ty.wrap_of_le {t : Ty} {v : Int} (hl : t.least ≤ v) (hg : v ≤ t.greatest) : t.wrap v = v := by
  unfold Ty.least at hl
  unfold Ty.greatest at hg
  unfold Ty.wrap
  rcases t.bits_eq with h | h <;> rw [h] at hl hg ⊢ <;> exact Int.bmod_eq_of_le (by omega) (by omega)

theorem Ty.least_le_wrap (t : Ty) (v : Int) : t.least ≤ t.wrap v := by
  unfold Ty.least Ty.wrap
  rcases t.bits_eq with h | h <;> rw [h] <;> exact Int.le_bmod (by decide)

theorem Ty.wrap_le_greatest (t : Ty) (v : Int) : t.wrap v ≤ t.greatest := by
  unfold Ty.greatest Ty.wrap
  rcases t.bits_eq with h | h <;> rw [h] <;> exact Int.bmod_le (by decide)

/-- Behind the greatest value comes the least one. -/
theorem Ty.wrap_greatest (t : Ty) : t.wrap (t.greatest + 1) = t.least := by
  unfold Ty.least Ty.greatest Ty.wrap
  rcases t.bits_eq with h | h <;> rw [h] <;> decide

/-- The first `n` numbers from `i` on. -/
def numbersFrom (i : Int) (n : Nat) : List Int := (List.range n).map fun k : Nat => i + (k : Int)

theorem numbersFrom_succ (i : Int) (n : Nat) : numbersFrom i (n + 1) = i :: numbersFrom (i + 1) n := by
  rw [numbersFrom, List.range_succ_eq_map, List.map_cons, List.map_map, numbersFrom]
  refine congrArg₂ List.cons (by simp) (List.map_congr_left fun k _ => ?_)
  simp only [Function.comp_apply]
  omega

namespace Ir

/-! ## Code within a function -/

section Within

variable {w : World} {T : SymbolTable} {full code rest u u' : List Instr} {σ σ' : Store}

theorem ne_of_length_lt {a b : List Instr} (h : b.length < a.length) : a ≠ b := by
  rintro rfl
  omega

/-- The point behind a label follows the label. -/
theorem label_suffix_of_codeAfter {l : String} : ∀ {code rest : List Instr}, codeAfter l code = some rest →
    .label l :: rest <:+ code
  | [], _, h => by cases h
  | i :: code, rest, h => by
    unfold codeAfter at h
    split at h
    · next hi =>
      cases h
      exact hi ▸ List.suffix_rfl
    · exact (label_suffix_of_codeAfter h).trans (List.suffix_cons i code)

theorem suffix_alone (code : List Instr) : code ++ [] <:+ code := ⟨[], List.append_nil code⟩

theorem nodup_labels_of_suffix (hfull : (labels full).Nodup) (hs : code ++ rest <:+ full) : (labels code).Nodup := by
  obtain ⟨pre, rfl⟩ := hs
  rw [labels_append, labels_append] at hfull
  exact (List.nodup_append.1 (List.nodup_append.1 hfull).2.1).1

/-- Code that stands alone takes the same steps within a function, and it does not come back to its beginning. -/
theorem Step.within (hfull : (labels full).Nodup) (hs : code ++ rest <:+ full) (hu : u <:+ code)
    (h : Step w T code (u, σ) (u', σ')) :
    Step w T full (u ++ rest, σ) (u' ++ rest, σ') ∧ u' <:+ code ∧ u'.length < code.length := by
  cases h with
  | next he =>
    refine ⟨.next he, suffix_tail hu, ?_⟩
    have := hu.length_le
    rw [List.length_cons] at this
    omega
  | @goto _ _ _ _ _ l he ht =>
    have hlabel := label_suffix_of_codeAfter ht
    have hmore : .label l :: (u' ++ rest) <:+ full := by
      obtain ⟨pre, rfl⟩ := hlabel
      refine List.IsSuffix.trans ⟨pre, ?_⟩ hs
      simp
    refine ⟨.goto he (codeAfter_of_suffix hfull hmore), suffix_tail hlabel, ?_⟩
    have := hlabel.length_le
    rw [List.length_cons] at this
    omega

end Within

/-! ## Visits of the body -/

/-- A run that comes to the point `entry` once for each of the values, which the variable `x` has there, and that does
not come to the point `exit` before its end. -/
inductive Visits (w : World) (T : SymbolTable) (full : List Instr) (x : String) (entry exit : List Instr) :
    List Instr × Store → List Int → List Instr × Store → Prop where
  | refl (c : List Instr × Store) : Visits w T full x entry exit c [] c
  | enter {σ : Store} {c d : List Instr × Store} {vs : List Int} : Step w T full (entry, σ) c →
    Visits w T full x entry exit c vs d → Visits w T full x entry exit (entry, σ) (σ x :: vs) d
  | pass {c c' d : List Instr × Store} {vs : List Int} : c.1 ≠ entry → c.1 ≠ exit → Step w T full c c' →
    Visits w T full x entry exit c' vs d → Visits w T full x entry exit c vs d

section Visits

variable {w : World} {T : SymbolTable} {full entry exit : List Instr} {x : String}

theorem Visits.trans {c d e : List Instr × Store} {vs us : List Int} (h : Visits w T full x entry exit c vs d)
    (h' : Visits w T full x entry exit d us e) : Visits w T full x entry exit c (vs ++ us) e := by
  induction h with
  | refl c => exact h'
  | enter hstep _ ih => exact .enter hstep (ih h')
  | pass hentry hexit hstep _ ih => exact .pass hentry hexit hstep (ih h')

theorem Visits.steps {c d : List Instr × Store} {vs : List Int} (h : Visits w T full x entry exit c vs d) :
    Steps w T full c d := by
  induction h with
  | refl c => exact .refl
  | enter hstep _ ih | pass _ _ hstep _ ih => exact ih.head hstep

/-- A run goes on as it visits, or it has come to its end. -/
theorem Visits.next {c c' d : List Instr × Store} {vs : List Int} (h : Visits w T full x entry exit c vs d)
    (hstep : Step w T full c c') : c = d ∧ vs = [] ∨ ∃ us, Visits w T full x entry exit c' us d := by
  cases h with
  | refl => exact .inl ⟨rfl, rfl⟩
  | enter hstep' h | pass _ _ hstep' h =>
    cases hstep.unique hstep'
    exact .inr ⟨_, h⟩

variable {code rest u u' : List Instr} {σ σ' : Store}

/-- A run of code that stands alone visits nothing, if it comes to points with less than `k` instructions of the code
only, and none of them is the entry or the exit. -/
theorem visits_within (hfull : (labels full).Nodup) (hs : code ++ rest <:+ full) {k : Nat} (hk : code.length ≤ k)
    (hquiet : ∀ u : List Instr, u.length < k → u ++ rest ≠ entry ∧ u ++ rest ≠ exit)
    (h : Steps w T code (u, σ) (u', σ')) (hu : u <:+ code) (hlt : u.length < k) :
    Visits w T full x entry exit (u ++ rest, σ) [] (u' ++ rest, σ') ∧ u'.length < k := by
  generalize hc : (u, σ) = c at h
  induction h using Relation.ReflTransGen.head_induction_on generalizing u σ with
  | refl =>
    cases hc
    exact ⟨.refl _, hlt⟩
  | @head _ c hstep _ ih =>
    subst hc
    obtain ⟨v, τ⟩ := c
    obtain ⟨hstep', hv, hvlt⟩ := hstep.within hfull hs hu
    obtain ⟨hvisits, hlt'⟩ := ih hv (by omega) rfl
    exact ⟨.pass (hquiet u hlt).1 (hquiet u hlt).2 hstep' hvisits, hlt'⟩

/-- Code that gives a value visits nothing, if the entry and the exit stand behind it. -/
theorem Gives.visits {temps all : List Ty} {v : Value} {value : Store → Option (Int × Store)} {s s' : Store} {a : Int}
    (h : Gives w T temps code v value) (hall : temps <+: all) (hfull : (labels full).Nodup)
    (hs : code ++ rest <:+ full) (hentry : entry.length < rest.length) (hexit : exit.length < rest.length)
    (hagree : s.Agrees σ) (hv : value s = some (a, s')) :
    ∃ σ', Visits w (T.withTemps all) full x entry exit (code ++ rest, σ) [] (rest, σ') ∧ s'.Agrees σ' ∧
      v.read w σ' = a := by
  have hrun := h (n := 0) hall (nodup_labels_of_suffix hfull hs) (suffix_alone code) hagree
  rw [hv, List.append_nil] at hrun
  obtain ⟨_, hsteps, σ', rfl, hagree', hread⟩ := hrun
  have hquiet : ∀ u : List Instr, u.length < code.length + 1 → u ++ rest ≠ entry ∧ u ++ rest ≠ exit :=
    fun u _ => ⟨ne_of_length_lt (by simp; omega), ne_of_length_lt (by simp; omega)⟩
  obtain ⟨hvisits, _⟩ :=
    visits_within hfull hs (Nat.le_succ _) hquiet hsteps List.suffix_rfl (Nat.lt_succ_self _)
  exact ⟨σ', hvisits, hagree', hread⟩

end Visits

/-! ## The pieces of a loop -/

/-- A loop through a range: its labels, its variable, the code of its first value, of its test and of its body, and what
follows it. -/
structure RangeLoop where
  start : String
  loop : String
  var : String
  ty : Ty
  first : List Instr × Value
  test : List Instr × Value
  body : List Instr
  rest : List Instr

namespace RangeLoop

/-- Where the variable is counted up. -/
def count (L : RangeLoop) : List Instr :=
  .binary (.arith .add) (.var L.var) (.ofTy 1 L.ty) (.var L.var) :: .jump L.start ::
    .label (breakLabel L.loop) :: L.rest

/-- Where the body is entered. -/
def entry (L : RangeLoop) : List Instr := L.body ++ (.label (continueLabel L.loop) :: L.count)

/-- Where a round starts. -/
def head (L : RangeLoop) : List Instr := L.test.1 ++ (.jumpIfZero L.test.2 (breakLabel L.loop) :: L.entry)

/-- Where the loop starts. -/
def code (L : RangeLoop) : List Instr := L.first.1 ++ (.copy L.first.2 (.var L.var) :: .label L.start :: L.head)

/-- What the pieces do: the first value is `A`, the variable is compared with `B`, and the body does what `run` says. -/
structure Runs (L : RangeLoop) (w : World) (T : SymbolTable) (all : List Ty) (full : List Instr) (A B : Int)
    (run : Nat → Store → Option (Outcome × Store)) : Prop where
  nodup : (labels full).Nodup
  suffix : L.code <:+ full
  tempFree : T.TempFree
  hasVar : T.HasVar L.var L.ty
  integer : L.ty.isInteger = true
  first : Gives w T all L.first.1 L.first.2 fun s => some (A, s)
  test : Gives w T all L.test.1 L.test.2 fun s => some (truth (s L.var ≤ B), s)
  body : ∀ fuel, Simulates w T all (some L.loop) fuel L.body (run fuel)

section Rounds

variable {L : RangeLoop} {w : World} {T : SymbolTable} {all : List Ty} {full : List Instr} {A B : Int}
  {run : Nat → Store → Option (Outcome × Store)} {s s' σ : Store}

/-- Visits of the body of the loop. -/
abbrev VisitsOf (L : RangeLoop) (w : World) (T : SymbolTable) (all : List Ty) (full : List Instr) :=
  Visits w (T.withTemps all) full L.var L.entry L.rest

theorem length_count (L : RangeLoop) : L.count.length = L.rest.length + 3 := rfl

theorem length_entry (L : RangeLoop) : L.entry.length = L.body.length + L.rest.length + 4 := by
  simp [entry, length_count]
  omega

theorem length_head (L : RangeLoop) : L.entry.length < L.head.length := by
  simp [head]
  omega

theorem Runs.start_suffix (h : L.Runs w T all full A B run) : .label L.start :: L.head <:+ full :=
  suffix_tail (suffix_right h.suffix)

theorem Runs.entry_suffix (h : L.Runs w T all full A B run) : L.entry <:+ full :=
  suffix_tail (suffix_right (suffix_tail h.start_suffix))

theorem Runs.continue_suffix (h : L.Runs w T all full A B run) : .label (continueLabel L.loop) :: L.count <:+ full :=
  suffix_right h.entry_suffix

theorem Runs.break_suffix (h : L.Runs w T all full A B run) : .label (breakLabel L.loop) :: L.rest <:+ full :=
  suffix_tail (suffix_tail (suffix_tail h.continue_suffix))

/-- A step from a point between the entry and the exit, or in front of both. -/
theorem visits_step {c : List Instr × Store} {point : List Instr} (hentry : point.length ≠ L.entry.length)
    (hexit : L.rest.length < point.length) (h : Step w (T.withTemps all) full (point, σ) c) :
    L.VisitsOf w T all full (point, σ) [] c := by
  refine .pass (fun he => hentry (congrArg List.length he)) (ne_of_length_lt hexit) h (.refl c)

/-- The loop starts with the first value. -/
theorem visits_start (h : L.Runs w T all full A B run) (hagree : s.Agrees σ) :
    ∃ σ', L.VisitsOf w T all full (L.code, σ) [] (L.head, σ') ∧
      Store.Agrees (Function.update s L.var (L.ty.wrap A)) σ' := by
  have hlt := L.length_head
  have hlt' := L.length_entry
  obtain ⟨σ₁, hfirst, hagree₁, hread⟩ :
      ∃ σ₁, L.VisitsOf w T all full (L.code, σ) [] (.copy L.first.2 (.var L.var) :: .label L.start :: L.head, σ₁) ∧
        s.Agrees σ₁ ∧ L.first.2.read w σ₁ = A :=
    h.first.visits (List.prefix_refl all) h.nodup h.suffix (by simp; omega) (by simp; omega) hagree rfl
  refine ⟨_, hfirst.trans ?_, hagree₁.var L.var _⟩
  refine (visits_step ?_ ?_ (step_copy ((h.tempFree.hasVar h.hasVar).2 all) hread)).trans
    (visits_step ?_ ?_ (step_label L.start))
  all_goals simp; omega

/-- The test of a round. -/
theorem visits_test (h : L.Runs w T all full A B run) (hagree : s.Agrees σ) :
    ∃ σ', L.VisitsOf w T all full (L.head, σ) [] (.jumpIfZero L.test.2 (breakLabel L.loop) :: L.entry, σ') ∧
      s.Agrees σ' ∧ L.test.2.read w σ' = truth (s L.var ≤ B) := by
  have hlt := L.length_entry
  exact h.test.visits (List.prefix_refl all) h.nodup (suffix_tail h.start_suffix) (by simp) (by simp; omega) hagree rfl

/-- Past the last value, the loop is left. -/
theorem visits_leave (h : L.Runs w T all full A B run) (hagree : s.Agrees σ) (hgt : B < s L.var) :
    ∃ σ', L.VisitsOf w T all full (L.head, σ) [] (L.rest, σ') := by
  have hlt := L.length_entry
  obtain ⟨σ₁, htest, _, hread⟩ := visits_test h hagree
  have hzero : L.test.2.read w σ₁ = 0 := by
    rw [hread, truth, if_neg (by simp; omega)]
  have hbreak := codeAfter_of_suffix h.nodup h.break_suffix
  exact ⟨σ₁, htest.trans (visits_step (by simp) (by simp; omega) (step_jumpIfZero hbreak hzero))⟩

/-- Up to the last value, the body is entered. -/
theorem visits_enter (h : L.Runs w T all full A B run) (hagree : s.Agrees σ) (hle : s L.var ≤ B) :
    ∃ σ', L.VisitsOf w T all full (L.head, σ) [] (L.entry, σ') ∧ s.Agrees σ' := by
  have hlt := L.length_entry
  obtain ⟨σ₁, htest, hagree₁, hread⟩ := visits_test h hagree
  have hone : L.test.2.read w σ₁ ≠ 0 := by
    rw [hread, truth, if_pos (by simpa using hle)]
    decide
  exact ⟨σ₁, htest.trans (visits_step (by simp) (by simp; omega) (step_jumpIfZero_of_ne hone)), hagree₁⟩

/-- Wherever the body ends, it is visited once: it does not come back to its own beginning. -/
theorem visits_body_steps (h : L.Runs w T all full A B run) {u : List Instr} {σ' : Store} {c : List Instr × Store}
    (hsteps : Steps w (T.withTemps all) L.body (L.body, σ) (u, σ'))
    (hlast : Step w (T.withTemps all) full (u ++ (.label (continueLabel L.loop) :: L.count), σ') c) :
    L.VisitsOf w T all full (L.entry, σ) [σ L.var] c := by
  have hcount := L.length_count
  have hentry := L.length_entry
  rcases hsteps.cases_head with heq | ⟨⟨v, τ⟩, hstep, hsteps⟩
  · cases heq
    exact .enter hlast (.refl c)
  · obtain ⟨hstep', hv, hvlt⟩ := hstep.within h.nodup h.entry_suffix List.suffix_rfl
    have hquiet : ∀ u : List Instr, u.length < L.body.length →
        u ++ (.label (continueLabel L.loop) :: L.count) ≠ L.entry ∧
        u ++ (.label (continueLabel L.loop) :: L.count) ≠ L.rest := by
      intro u hu
      exact ⟨(ne_of_length_lt (by simp; omega)).symm, ne_of_length_lt (by simp; omega)⟩
    obtain ⟨hvisits, hult⟩ := visits_within h.nodup h.entry_suffix (Nat.le_refl _) hquiet hsteps hv hvlt
    exact .enter hstep' (hvisits.trans (visits_step (by simp; omega) (by simp; omega) hlast))

/-- A body that is run to its end is visited once, and the variable is counted up behind it. -/
theorem visits_body (h : L.Runs w T all full A B run) (hagree : s.Agrees σ) {fuel : Nat} {outcome : Outcome}
    (hrun : run fuel s = some (outcome, s')) (ho : outcome = .done ∨ outcome = .next) :
    ∃ σ', L.VisitsOf w T all full (L.entry, σ) [s L.var] (L.head, σ') ∧
      Store.Agrees (Function.update s' L.var (L.ty.wrap (s' L.var + 1))) σ' := by
  obtain ⟨hne, hty⟩ := h.tempFree.hasVar h.hasVar
  have hcount := L.length_count
  have hentry := L.length_entry
  have hbody := h.body fuel (List.prefix_refl all) (nodup_labels_of_suffix h.nodup h.entry_suffix)
    (suffix_alone L.body) hagree
  rw [hrun, List.append_nil] at hbody
  obtain ⟨⟨u, σ₁⟩, hsteps, hagree₁, hends⟩ := hbody
  -- Behind the body and at a jump to the next round, control comes to where the variable is counted up.
  have hlast : Step w (T.withTemps all) full (u ++ (.label (continueLabel L.loop) :: L.count), σ₁) (L.count, σ₁) := by
    rcases ho with rfl | rfl
    · cases hends
      exact step_label _
    · obtain ⟨id, hid, more, hpoint⟩ := hends
      cases hid
      cases hpoint
      exact step_jump (codeAfter_of_suffix h.nodup h.continue_suffix)
  have hvar : (Value.var L.var).read w σ₁ = s' L.var := hagree₁ L.var hne
  let σ₂ := Function.update σ₁ L.var (L.ty.wrap (s' L.var + 1))
  have hadd : Step w (T.withTemps all) full (L.count, σ₁) (L.count.tail, σ₂) :=
    step_binary (hty all) hvar (read_one h.integer σ₁) rfl
  have hjump : Step w (T.withTemps all) full (L.count.tail, σ₂) (L.head, σ₂) :=
    step_jump (codeAfter_of_suffix h.nodup h.start_suffix)
  refine ⟨σ₂, ?_, hagree₁.var L.var _⟩
  rw [← hagree L.var hne]
  have htail : L.count.tail.length = L.rest.length + 2 := rfl
  refine (visits_body_steps h hsteps hlast).trans ((visits_step ?_ ?_ hadd).trans (visits_step ?_ ?_ hjump))
  all_goals omega

/-- From every store of which `P` holds and in which the variable is between `a` and `b`, the body comes to an end and
leaves the variable alone, and `P` holds again in the next round. -/
def Completes (L : RangeLoop) (run : Nat → Store → Option (Outcome × Store)) (a b : Int) (P : Store → Prop) : Prop :=
  ∀ s, P s → a ≤ s L.var → s L.var ≤ b → ∃ fuel outcome s', run fuel s = some (outcome, s') ∧
    (outcome = .done ∨ outcome = .next) ∧ s' L.var = s L.var ∧
    P (Function.update s' L.var (L.ty.wrap (s' L.var + 1)))

variable {P : Store → Prop} {a : Int}

/-- One round of the loop. -/
theorem visits_round (h : L.Runs w T all full A B run) (hdone : L.Completes run a B P) (hs : P s) (hagree : s.Agrees σ)
    (hge : a ≤ s L.var) (hle : s L.var ≤ B) :
    ∃ s' σ' : Store, L.VisitsOf w T all full (L.head, σ) [s L.var] (L.head, σ') ∧ s'.Agrees σ' ∧ P s' ∧
      s' L.var = L.ty.wrap (s L.var + 1) := by
  obtain ⟨fuel, outcome, s', hrun, ho, hkeep, hs'⟩ := hdone s hs hge hle
  obtain ⟨σ₁, henter, hagree₁⟩ := visits_enter h hagree hle
  obtain ⟨σ₂, hbody, hagree₂⟩ := visits_body h hagree₁ hrun ho
  refine ⟨_, σ₂, henter.trans hbody, hagree₂, hs', ?_⟩
  rw [Function.update_self, hkeep]

/-- Rounds from `i` on, up to the last value at most. -/
theorem visits_rounds (h : L.Runs w T all full A B run) (hdone : L.Completes run A B P) (hA : L.ty.least ≤ A)
    (hB : B ≤ L.ty.greatest) : ∀ (n : Nat) (i : Int) {s σ : Store}, A ≤ i → i + n ≤ B + 1 → P s → s.Agrees σ →
    s L.var = L.ty.wrap i →
    ∃ s' σ' : Store, L.VisitsOf w T all full (L.head, σ) (numbersFrom i n) (L.head, σ') ∧ s'.Agrees σ' ∧
      s' L.var = L.ty.wrap (i + n) := by
  intro n
  induction n with
  | zero =>
    intro i s σ _ _ _ hagree hi
    exact ⟨s, σ, .refl _, hagree, by simpa using hi⟩
  | succ n ih =>
    intro i s σ hAi hiB hs hagree hi
    rw [Ty.wrap_of_le (by omega) (by omega)] at hi
    obtain ⟨s₁, σ₁, hround, hagree₁, hs₁, hi₁⟩ := visits_round h hdone hs hagree (by omega) (by omega)
    rw [hi] at hround hi₁
    obtain ⟨s₂, σ₂, hrounds, hagree₂, hi₂⟩ := ih (i + 1) (by omega) (by omega) hs₁ hagree₁ hi₁
    refine ⟨s₂, σ₂, ?_, hagree₂, ?_⟩
    · rw [numbersFrom_succ]
      exact hround.trans hrounds
    · rw [hi₂]
      congr 1
      push_cast
      omega

/-- Started anywhere, the loop comes to the round behind its last value. -/
theorem visits_all (h : L.Runs w T all full A B run) (hdone : L.Completes run A B P) (hA : L.ty.least ≤ A) (hAB : A ≤ B)
    (hB : B ≤ L.ty.greatest) (hs : P (Function.update s L.var (L.ty.wrap A))) (hagree : s.Agrees σ) :
    ∃ s' σ' : Store, L.VisitsOf w T all full (L.code, σ) (numbersFrom A (B - A + 1).toNat) (L.head, σ') ∧
      s'.Agrees σ' ∧ s' L.var = L.ty.wrap (B + 1) := by
  obtain ⟨σ₁, hstart, hagree₁⟩ := visits_start h hagree
  obtain ⟨s₂, σ₂, hrounds, hagree₂, hlast⟩ := visits_rounds h hdone hA hB (B - A + 1).toNat A (Int.le_refl A)
    (by omega) hs hagree₁ (Function.update_self ..)
  refine ⟨s₂, σ₂, hstart.trans hrounds, hagree₂, ?_⟩
  rw [hlast]
  congr 1
  omega

/-- A loop whose last value is not the greatest one of the type visits all its numbers and is left. -/
theorem visits_range (h : L.Runs w T all full A B run) (hdone : L.Completes run A B P) (hA : L.ty.least ≤ A)
    (hAB : A ≤ B) (hB : B < L.ty.greatest) (hs : P (Function.update s L.var (L.ty.wrap A))) (hagree : s.Agrees σ) :
    ∃ σ', L.VisitsOf w T all full (L.code, σ) (numbersFrom A (B - A + 1).toNat) (L.rest, σ') := by
  obtain ⟨s₁, σ₁, hall, hagree₁, hlast⟩ := visits_all h hdone hA hAB (by omega) hs hagree
  rw [Ty.wrap_of_le (by omega) (by omega)] at hlast
  obtain ⟨σ₂, hleave⟩ := visits_leave h hagree₁ (by omega)
  refine ⟨σ₂, ?_⟩
  simpa using hall.trans hleave

/-- If the last value is the greatest one, the body is entered once more, with the least value. -/
theorem visits_again (h : L.Runs w T all full A B run) (hdone : L.Completes run A B P) (hA : L.ty.least ≤ A)
    (hAB : A ≤ B) (hB : B = L.ty.greatest) (hs : P (Function.update s L.var (L.ty.wrap A))) (hagree : s.Agrees σ) :
    ∃ σ', L.VisitsOf w T all full (L.code, σ) (numbersFrom A (B - A + 1).toNat) (L.entry, σ') ∧
      σ' L.var = L.ty.least := by
  obtain ⟨s₁, σ₁, hall, hagree₁, hlast⟩ := visits_all h hdone hA hAB (by omega) hs hagree
  rw [hB, Ty.wrap_greatest] at hlast
  obtain ⟨σ₂, henter, hagree₂⟩ := visits_enter h hagree₁ (by omega)
  refine ⟨σ₂, ?_, (hagree₂ L.var (h.tempFree.hasVar h.hasVar).1).trans hlast⟩
  simpa using hall.trans henter

/-- From here the run comes to another round. -/
def GoesOn (L : RangeLoop) (w : World) (T : SymbolTable) (all : List Ty) (full : List Instr) (P : Store → Prop)
    (c : List Instr × Store) : Prop :=
  ∃ (vs : List Int) (s σ : Store) (i : Int), L.VisitsOf w T all full c vs (L.head, σ) ∧ s.Agrees σ ∧ P s ∧
    s L.var = L.ty.wrap i

theorem GoesOn.ne_rest {c : List Instr × Store} (h : L.GoesOn w T all full P c) : c.1 ≠ L.rest := by
  have hhead := L.length_head
  have hentry := L.length_entry
  obtain ⟨vs, s, σ, i, hvisits, _⟩ := h
  cases hvisits with
  | refl => exact ne_of_length_lt (b := L.rest) (a := L.head) (by omega)
  | enter => exact ne_of_length_lt (b := L.rest) (a := L.entry) (by omega)
  | pass _ hexit => exact hexit

/-- Every value of the type is at most the greatest one, so that a round follows each round. -/
theorem GoesOn.step {c c' : List Instr × Store} (h : L.Runs w T all full A L.ty.greatest run)
    (hdone : L.Completes run L.ty.least L.ty.greatest P) (hc : L.GoesOn w T all full P c)
    (hstep : Step w (T.withTemps all) full c c') : L.GoesOn w T all full P c' := by
  obtain ⟨vs, s, σ, i, hvisits, hagree, hs, hi⟩ := hc
  rcases hvisits.next hstep with ⟨rfl, _⟩ | ⟨us, hvisits'⟩
  · obtain ⟨s', σ', hround, hagree', hs', hi'⟩ :=
      visits_round h hdone hs hagree (hi ▸ L.ty.least_le_wrap i) (hi ▸ L.ty.wrap_le_greatest i)
    rcases hround.next hstep with ⟨_, hnil⟩ | ⟨us, hround'⟩
    · cases hnil
    · exact ⟨us, s', σ', _, hround', hagree', hs', hi'⟩
  · exact ⟨us, s, σ, i, hvisits', hagree, hs, hi⟩

/-- If the last value is the greatest one and the body always completes, the loop is never left. -/
theorem never_left (h : L.Runs w T all full A L.ty.greatest run)
    (hdone : L.Completes run L.ty.least L.ty.greatest P) (hs : P (Function.update s L.var (L.ty.wrap A)))
    (hagree : s.Agrees σ) (σ' : Store) : ¬ Steps w (T.withTemps all) full (L.code, σ) (L.rest, σ') := by
  intro hsteps
  have hgoes : ∀ c, Steps w (T.withTemps all) full (L.code, σ) c → L.GoesOn w T all full P c := by
    intro c hc
    induction hc with
    | refl =>
      obtain ⟨σ₁, hstart, hagree₁⟩ := visits_start h hagree
      exact ⟨[], _, σ₁, A, hstart, hagree₁, hs, Function.update_self ..⟩
    | tail _ hstep ih => exact ih.step h hdone hstep
  exact (hgoes _ hsteps).ne_rest rfl

end Rounds

end RangeLoop

end Ir

open Ir

/-! ## Lowering -/

/-- A step ends with what running it gives. -/
theorem Ensures.and_run {ε σ α : Type} {E : ε → Prop} {Q : α → σ → Prop} {m : StateT σ (Except ε) α} {s : σ}
    (h : Ensures m s E Q) : Ensures m s E fun a s' => m.run s = .ok (a, s') ∧ Q a s' := by
  unfold Ensures at h ⊢
  cases hm : m.run s with
  | ok r => exact ⟨rfl, h.of_ok hm⟩
  | error e =>
    rw [hm] at h
    exact h

/-- The expression has the value `a` everywhere, and changes nothing. -/
def Expr.IsConstant (T : SymbolTable) (e : Expr) (a : Int) : Prop := ∀ w s, e.value w T .atUse s = some (a, s)

/-- From every store of which `P` holds and in which the variable `x` is between `a` and `b`, the body comes to an end,
and `P` holds again in the next round, when `x` has been counted up. -/
def BodyCompletes (w : World) (T : SymbolTable) (x : String) (t : Ty) (body : List Item) (a b : Int)
    (P : Store → Prop) : Prop :=
  ∀ s, P s → a ≤ s x → s x ≤ b → ∃ fuel outcome s', runItems w T .atUse fuel body s = some (outcome, s') ∧
    P (Function.update s' x (t.wrap (s' x + 1)))

/-- What the code of a loop from `A` to `B` does, started with the store `σ`, if its body always completes. It visits
all the numbers from `A` to `B` and is left then, unless `B` is the greatest number: then the body is entered once more,
with the least one, and the loop is never left. -/
structure Ir.RangeLoop.RunsThrough (L : RangeLoop) (w : World) (T : SymbolTable) (all : List Ty) (full : List Instr)
    (body : List Item) (A B : Int) (σ : Store) (P : Store → Prop) : Prop where
  visits : BodyCompletes w T L.var L.ty body A B P → B < L.ty.greatest →
    ∃ σ', L.VisitsOf w T all full (L.code, σ) (numbersFrom A (B - A + 1).toNat) (L.rest, σ')
  again : BodyCompletes w T L.var L.ty body A B P → B = L.ty.greatest →
    ∃ σ', L.VisitsOf w T all full (L.code, σ) (numbersFrom A (B - A + 1).toNat) (L.entry, σ') ∧ σ' L.var = L.ty.least
  stays : BodyCompletes w T L.var L.ty body L.ty.least B P → B = L.ty.greatest →
    ∀ σ', ¬ Steps w (T.withTemps all) full (L.code, σ) (L.rest, σ')

section Lower

variable {T : SymbolTable} {ret : Ty} {x : Ident} {note : Note} {l r : Expr} {body : List Item} {id : Option String}
  {A B : Int}

/-- A body that neither breaks nor returns nor changes the variable only has to come to an end. -/
theorem BodyCompletes.completes {L : RangeLoop} {w : World} {a b : Int} {P : Store → Prop}
    (h : BodyCompletes w T L.var L.ty body a b P) (hleave : itemsHaveLeave body = false)
    (hret : itemsHaveReturn body = false) (hkeep : itemsMayChange T L.var body = false) :
    L.Completes (fun fuel => runItems w T .atUse fuel body) a b P := by
  intro s hs ha hb
  obtain ⟨fuel, outcome, s', hrun, hs'⟩ := h s hs ha hb
  exact ⟨fuel, outcome, s', hrun, runItems_done_or_next hleave hret hrun, runItems_leaves body s hkeep outcome s' hrun,
    hs'⟩

theorem Ir.RangeLoop.Runs.runsThrough {L : RangeLoop} {w : World} {all : List Ty} {full : List Instr}
    {s σ : Store} {P : Store → Prop} (h : L.Runs w T all full A B fun fuel => runItems w T .atUse fuel body)
    (hleave : itemsHaveLeave body = false) (hret : itemsHaveReturn body = false)
    (hkeep : itemsMayChange T L.var body = false) (hA : L.ty.least ≤ A) (hAB : A ≤ B) (hB : B ≤ L.ty.greatest)
    (hs : P (Function.update s L.var (L.ty.wrap A))) (hagree : s.Agrees σ) :
    L.RunsThrough w T all full body A B σ P := by
  refine ⟨fun hdone hlt => ?_, fun hdone heq => ?_, fun hdone heq => ?_⟩
  · exact visits_range h (hdone.completes hleave hret hkeep) hA hAB hlt hs hagree
  · exact visits_again h (hdone.completes hleave hret hkeep) hA hAB heq hs hagree
  · subst heq
    exact never_left h (hdone.completes hleave hret hkeep) hs hagree

/-- The loop, with `rest` behind it. -/
def Ir.RangeLoop.followedBy (L : RangeLoop) (rest : List Instr) : RangeLoop := { L with rest }

/-- The loop is lowered to these pieces: they make up the code, and the body is that of the loop. -/
structure Stmt.LoweredAs (T : SymbolTable) (temps : List Ty) (x : Ident) (t : Ty) (body : List Item)
    (code : List Instr) (st' : LoweringState) (L : RangeLoop) (temps' : List Ty) : Prop where
  more : temps <+: temps'
  made : Made T temps' st'
  var : L.var = x.name
  ty : L.ty = t
  body : ∃ st₁ st₂, (lowerItems body).run st₁ = .ok (L.body, st₂)
  code : ∀ rest, (L.followedBy rest).code = code ++ rest

variable {t : Ty} {current : Option String} {temps : List Ty} {st : LoweringState}

/-- A loop from one constant to another is lowered to pieces that do what they should. -/
theorem Stmt.lower_range (hT : T.IsSound) (hfree : T.TempFree)
    (hw : (Stmt.loop (some x) (.range note l r) body id).WellTyped T ret)
    (hlab : (Stmt.loop (some x) (.range note l r) body id).Labelled current) (hst : Made T temps st)
    (ht : note.ty = some t) (hl : l.IsConstant T A) (hr : r.IsConstant T B) :
    Ensures (Stmt.loop (some x) (.range note l r) body id).lower st (fun _ => False) fun code st' => ∃ L temps',
      Stmt.LoweredAs T temps x t body code st' L temps' ∧
      ∀ w all full rest, temps' <+: all → (labels full).Nodup → code ++ rest <:+ full →
        (L.followedBy rest).Runs w T all full A B fun fuel => runItems w T .atUse fuel body := by
  obtain ⟨⟨hlw, hrw, u, hi, hlu, hru, hu⟩, hvar, hb⟩ := hw
  obtain ⟨hid, hlab⟩ := hlab
  obtain ⟨u', hx, hty⟩ := hvar x rfl
  cases ht.symm.trans hu
  cases hu.symm.trans (hty rfl)
  rw [Stmt.lower]
  refine .bind (Lowering.loopId_of_isSome "loop" hid st) ?_
  rintro i _ ⟨rfl, rfl⟩
  refine .bind (Lowering.label_made hst "loop_start") fun start st₁ hst₁ => ?_
  refine .bind (x.loopTy_typed hT hx hst₁) ?_
  rintro ty _ ⟨rfl, hone⟩
  obtain rfl := hone hfree
  refine .bind (Expr.lower_gives hT hfree ⟨hlw, hlu⟩ hst₁) ?_
  rintro first st₂ ⟨temps₂, hp₂, hst₂, hfirst⟩
  refine .bind (Expr.lower_gives hT hfree ⟨hrw, hru⟩ hst₂) ?_
  rintro last st₃ ⟨temps₃, hp₃, hst₃, hlast⟩
  refine .bind (Lowering.temp_made hst₃ rfl) ?_
  rintro _ st₄ ⟨rfl, hst₄⟩
  refine .bind (lowerItems_simulates hT hfree body hb hlab hst₄).and_run ?_
  rintro code st₅ ⟨hrun, temps₅, hp₅, hst₅, hbody⟩
  have hp₃₅ := (List.prefix_append temps₃ _).trans hp₅
  have hcode : ∀ rest, RangeLoop.code ⟨start, i, x.name, ty, first,
      (last.1 ++ [.binary (.compare .le) (.var x.name) last.2 (.var (numbered "tmp" temps₃.length))],
        .var (numbered "tmp" temps₃.length)), code, rest⟩ =
      rangeCode start i (.var x.name) (.ofTy 1 ty) (.var (numbered "tmp" temps₃.length)) first last code ++ rest := by
    intro rest
    simp [RangeLoop.code, RangeLoop.head, RangeLoop.entry, RangeLoop.count, rangeCode_append]
  have hconst : ∀ {w : World} {e : Expr} {a : Int}, e.IsConstant T a → e.value w T .atUse = fun s => some (a, s) :=
    fun he => funext (he _)
  refine .pure ⟨⟨start, i, x.name, ty, first, _, code, []⟩, temps₅,
    ⟨(hp₂.trans hp₃).trans hp₃₅, hst₅, rfl, rfl, ⟨_, _, hrun⟩, hcode⟩, ?_⟩
  intro w all full rest hall hfull hs
  refine ⟨hfull, hcode rest ▸ hs, hfree, hx, hi, ?_, ?_, fun fuel => (hbody w fuel).mono hall⟩
  · exact hconst hl ▸ (hfirst w).mono ((hp₃.trans hp₃₅).trans hall)
  · exact (gives_inRange hfree hx (hconst hr ▸ hlast w)).mono (hp₅.trans hall)

/-- A loop whose variable counts from `A` to `B` is lowered to pieces that run through the numbers between them,
wherever their code stands. -/
def Stmt.LowersToRange (T : SymbolTable) (temps : List Ty) (st : LoweringState) (x : Ident) (t : Ty) (control : Expr)
    (body : List Item) (id : Option String) (A B : Int) : Prop :=
  Ensures (Stmt.loop (some x) control body id).lower st (fun _ => False) fun code st' => ∃ L temps',
    Stmt.LoweredAs T temps x t body code st' L temps' ∧
    ∀ w all full rest (s σ : Store) P, temps' <+: all → (labels full).Nodup → code ++ rest <:+ full → s.Agrees σ →
      P (Function.update s x.name A) → (L.followedBy rest).RunsThrough w T all full body A B σ P

/-- So is every loop from one constant to another whose body neither breaks nor returns nor changes the variable. -/
theorem Stmt.lower_visits (hT : T.IsSound) (hfree : T.TempFree)
    (hw : (Stmt.loop (some x) (.range note l r) body id).WellTyped T ret)
    (hlab : (Stmt.loop (some x) (.range note l r) body id).Labelled current) (hst : Made T temps st)
    (ht : note.ty = some t) (hleave : itemsHaveLeave body = false) (hret : itemsHaveReturn body = false)
    (hkeep : itemsMayChange T x.name body = false) (hl : l.IsConstant T A) (hr : r.IsConstant T B)
    (hA : t.least ≤ A) (hAB : A ≤ B) (hB : B ≤ t.greatest) :
    Stmt.LowersToRange T temps st x t (.range note l r) body id A B := by
  refine (Stmt.lower_range hT hfree hw hlab hst ht hl hr).mono ?_
  rintro code st' ⟨L, temps', hL, hruns⟩
  refine ⟨L, temps', hL, ?_⟩
  intro w all full rest s σ P hall hfull hs hagree hP
  obtain rfl := hL.ty
  rw [← hL.var] at hkeep hP
  refine (hruns w all full rest hall hfull hs).runsThrough hleave hret hkeep hA hAB hB ?_ hagree
  exact (Ty.wrap_of_le hA (by omega)).symm ▸ hP

end Lower

/-- Adds the variable `i` to `sum`. -/
def addingUp (sum i : String) (ty : Option Ty) : List Item :=
  [.stmt (.eval (.assign { ty } (.var { ty } sum)
    (.binary { ty } (.strict (.arith .add)) (.var { ty } sum) (.var { ty } i))))]

/-- The numbers from `a` to `b`. -/
def fromTo (a b : Int32) (ty : Option Ty) : Expr := .range { ty } (.int { ty } a) (.int { ty } b)

/-- A function that adds up the numbers from `a` to `b`. -/
def addsUp (a b : Int32) (sum i : String) (ty : Option Ty) (id : Option String) : Program :=
  ⟨[.fn ⟨⟨"f", .nowhere⟩, [], .int, true, false⟩ (some
    [.var ⟨⟨sum, .nowhere⟩, .int, some (.int { ty } 0), none⟩,
      .stmt (.loop (some ⟨i, .nowhere⟩) (fromTo a b ty) (addingUp sum i ty) id),
      .stmt (.ret (some (.var { ty } sum)) .nowhere)])]⟩

/-- What is known of the names of that function. -/
def addsUpSymbols : SymbolTable :=
  ⟨[("f", ⟨.fn [] .int32, .function true true⟩), ("sum.0", ⟨.int32, .automatic⟩), ("i.1", ⟨.int32, .automatic⟩)]⟩

section AddsUp

variable (a b : Int32)

theorem addsUp_isPlain : (addsUp a b "sum" "i" none none).IsPlain := by
  refine ⟨rfl, ?_, ?_⟩
  · show ∀ x ∈ ["sum", "i"], Dotless x
    decide
  · show ∀ x ∈ ["f"], Dotless x
    decide

theorem addsUp_analyzed : Analyzed (addsUp a b "sum" "i" none none)
    (addsUp a b "sum.0" "i.1" (some .int32) (some "loop.0")) addsUpSymbols :=
  (Program.analyze_yields (addsUp_isPlain a b)).of_ok rfl

theorem addsUp_wellTyped : (Stmt.loop (some ⟨"i.1", .nowhere⟩) (fromTo a b (some .int32))
    (addingUp "sum.0" "i.1" (some .int32)) (some "loop.0")).WellTyped addsUpSymbols .int32 :=
  (((addsUp_analyzed a b).wellTyped _ List.mem_cons_self).2.2 _ rfl).2.1

theorem addsUp_labelled : (Stmt.loop (some ⟨"i.1", .nowhere⟩) (fromTo a b (some .int32))
    (addingUp "sum.0" "i.1" (some .int32)) (some "loop.0")).Labelled none :=
  ((addsUp_analyzed a b).labelled _ List.mem_cons_self).1

theorem addsUp_tempFree : addsUpSymbols.TempFree :=
  (addsUp_analyzed 0 0).tempFree (by decide)

theorem addsUp_completes (w : World) (c d : Int) :
    BodyCompletes w addsUpSymbols "i.1" .int32 (addingUp "sum.0" "i.1" (some .int32)) c d fun _ => True :=
  fun _ _ _ _ => ⟨0, _, _, rfl, trivial⟩

end AddsUp

theorem addsUp_visits :
    (∀ w, BodyCompletes w addsUpSymbols "i.1" .int32 (addingUp "sum.0" "i.1" (some .int32)) 1 3 fun _ => True) ∧
    Stmt.LowersToRange addsUpSymbols [] { symbols := addsUpSymbols } ⟨"i.1", .nowhere⟩ .int32
      (fromTo 1 3 (some .int32)) (addingUp "sum.0" "i.1" (some .int32)) (some "loop.0") 1 3 :=
  ⟨fun w => addsUp_completes w 1 3, Stmt.lower_visits (addsUp_analyzed 1 3).sound addsUp_tempFree
    (addsUp_wellTyped 1 3) (addsUp_labelled 1 3) ⟨rfl, rfl, by simp⟩ rfl rfl rfl rfl (fun _ _ => rfl) (fun _ _ => rfl)
    (by decide) (by decide) (by decide)⟩

/-- Not every loop is left when it has come to its last number: behind the greatest one it goes on with the least. -/
theorem addsUp_never_left : ¬ ∀ (T : SymbolTable) (ret t : Ty) (x : Ident) (note : Note) (l r : Expr)
    (body : List Item) (id : Option String) (A B : Int) (code : List Instr) (st' : LoweringState), T.IsSound →
    T.TempFree → (Stmt.loop (some x) (.range note l r) body id).WellTyped T ret →
    (Stmt.loop (some x) (.range note l r) body id).Labelled none → note.ty = some t → itemsHaveLeave body = false →
    itemsHaveReturn body = false → itemsMayChange T x.name body = false → l.IsConstant T A → r.IsConstant T B →
    t.least ≤ A → A ≤ B → B ≤ t.greatest →
    (∀ w, BodyCompletes w T x.name t body t.least t.greatest fun _ => True) →
    (Stmt.loop (some x) (.range note l r) body id).lower.run { symbols := T } = .ok (code, st') →
    ∀ w s, ∃ σ', Steps w st'.symbols code (code, s) ([], σ') := by
  intro hall
  have hconst : ∀ n : Int32, (Expr.int { ty := some .int32 } n).IsConstant addsUpSymbols n.toInt := fun n _ _ => rfl
  have hsound := (addsUp_analyzed 2147483646 2147483647).sound
  have hw := addsUp_wellTyped 2147483646 2147483647
  have hlab := addsUp_labelled 2147483646 2147483647
  have hmade : Made addsUpSymbols [] { symbols := addsUpSymbols } := ⟨rfl, rfl, by simp⟩
  obtain ⟨⟨code, st'⟩, hrun, L, temps', hL, hruns⟩ := Yields.exists_ok
    (Stmt.lower_range hsound addsUp_tempFree hw hlab hmade rfl (hconst 2147483646) (hconst 2147483647))
  have hnodup : (labels code).Nodup := by
    cases hrun
    decide
  obtain ⟨σ', hsteps⟩ := hall _ _ _ _ _ _ _ _ _ _ _ code st' hsound addsUp_tempFree hw hlab rfl rfl rfl rfl
    (hconst 2147483646) (hconst 2147483647) (by decide) (by decide) (by decide) (fun w => addsUp_completes w _ _) hrun
    ⟨fun _ => 0, fun _ => 0, fun _ _ s => (0, s)⟩ fun _ => 0
  obtain ⟨start, loop, var, ty, first, test, entered, rest⟩ := L
  cases hL.var
  cases hL.ty
  have hruns' := hruns ⟨fun _ => 0, fun _ => 0, fun _ _ s => (0, s)⟩ temps' code [] (List.prefix_refl _) hnodup
    (suffix_alone code)
  refine Ir.RangeLoop.never_left (s := fun _ => 0) (σ := fun _ => 0) hruns'
    ((addsUp_completes _ _ _).completes rfl rfl rfl) trivial (fun _ _ => rfl) σ' ?_
  rw [hL.code [], List.append_nil, ← hL.made.symbols]
  exact hsteps

end Khel
