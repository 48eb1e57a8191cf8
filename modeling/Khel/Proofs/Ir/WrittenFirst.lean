import Khel.Proofs.Ir.Minting
import Khel.Proofs.Ir.Paths
import Khel.Proofs.Machine.Selectable

/-!
# Temporaries are written before they are read

A path through a function reads a temporary only behind an instruction that writes it. A loop may take a path through
one point any number of times, so what is said of paths from a point is said of those with few steps first: `Safe`
counts the steps, and every round of a loop takes one.

* `Ir.Safe`: on every short path from a point, what is read is known there or was written on the way.
* `Ir.Supplies`: a piece of code that leaves values for the code behind it.
* `Expr.lower_supplies`: the code of an expression leaves its value.
-/

namespace Khel.Ir

/-! ## Reading and writing -/

/-- The values that an instruction reads. -/
def Instr.reads : Instr → List Value
  | .ret v | .jumpIfZero v _ | .jumpIfNotZero v _ => [v]
  | .signExtend src _ | .truncate src _ | .unary _ src _ | .copy src _ => [src]
  | .binary _ l r _ => [l, r]
  | .call _ args _ => args
  | .jump _ | .label _ => []

/-- An instruction names what it reads and what it writes. -/
theorem Instr.mem_values {i : Instr} {v : Value} : v ∈ i.values ↔ v ∈ i.reads ∨ i.dst? = some v := by
  cases i with
  | binary op l r dst => simp [values, reads, dst?, or_assoc, eq_comm]
  | ret | signExtend | truncate | unary | copy | jump | jumpIfZero | jumpIfNotZero | label | call =>
    simp [values, reads, dst?, or_comm, eq_comm]

/-- The name is not one that temporaries have. -/
def IsSource (x : String) : Prop := ∀ n, x ≠ numbered "tmp" n

/-- What is known behind an instruction. -/
def after (known : String → Prop) (i : Instr) (x : String) : Prop := known x ∨ i.dst? = some (.var x)

/-! ## Safe points -/

/-- On every path of so many steps from the point, an instruction reads what is known or was written on the way. -/
def Safe (full : List Instr) : Nat → (String → Prop) → List Instr → Prop
  | 0, _, _ | _ + 1, _, [] => True
  | n + 1, known, i :: rest => (∀ x, .var x ∈ i.reads → known x) ∧
    ∀ next, Flows full (i :: rest) next → Safe full n (after known i) next

/-- The same from the point behind a label. -/
def SafeAt (full : List Instr) (n : Nat) (known : String → Prop) (l : String) : Prop :=
  ∀ target, codeAfter l full = some target → Safe full n known target

section Safe

variable {full rest point : List Instr} {n m : Nat} {known known' : String → Prop} {i : Instr} {l : String}

/-- To know more does no harm. -/
theorem Safe.knowing (h : Safe full n known point) (hle : ∀ x, known x → known' x) : Safe full n known' point := by
  induction n generalizing known known' point with
  | zero => trivial
  | succ n ih =>
    cases point with
    | nil => trivial
    | cons i rest =>
      obtain ⟨hreads, hnext⟩ := h
      refine ⟨fun x hx => hle x (hreads x hx), fun next hflow => ih (hnext next hflow) fun x hx => ?_⟩
      exact hx.imp_left (hle x)

theorem Safe.pred (h : Safe full (n + 1) known point) : Safe full n known point := by
  induction n generalizing known point with
  | zero => trivial
  | succ n ih =>
    cases point with
    | nil => trivial
    | cons i rest => exact ⟨h.1, fun next hflow => ih (h.2 next hflow)⟩

theorem Safe.mono (h : Safe full n known point) (hle : m ≤ n) : Safe full m known point := by
  induction hle with
  | refl => exact h
  | step _ ih => exact ih h.pred

theorem SafeAt.mono (h : SafeAt full n known l) (hle : m ≤ n) : SafeAt full m known l :=
  fun target htarget => (h target htarget).mono hle

theorem SafeAt.knowing (h : SafeAt full n known l) (hle : ∀ x, known x → known' x) : SafeAt full n known' l :=
  fun target htarget => (h target htarget).knowing hle

/-- Behind a label, wherever it stands. -/
theorem Safe.behind (h : Safe full n known rest) (hfull : (labels full).Nodup) (hs : .label l :: rest <:+ full) :
    SafeAt full n known l := by
  intro target htarget
  rw [codeAfter_of_suffix hfull hs] at htarget
  exact Option.some.inj htarget ▸ h

/-- An instruction that does not jump. -/
theorem Safe.plain (h : Safe full n (after known i) rest) (ht : i.target? = none)
    (hreads : ∀ x, .var x ∈ i.reads → known x) : Safe full n known (i :: rest) := by
  cases n with
  | zero => trivial
  | succ n =>
    refine ⟨hreads, fun next hflow => ?_⟩
    cases hflow with
    | pass _ => exact h.pred
    | jump htarget _ => cases ht.symm.trans htarget

/-- An instruction that may jump. -/
theorem Safe.branch (h : Safe full n known rest) (ht : i.target? = some l) (hl : SafeAt full n known l)
    (hreads : ∀ x, .var x ∈ i.reads → known x) : Safe full n known (i :: rest) := by
  cases n with
  | zero => trivial
  | succ n =>
    have hmore : ∀ x, known x → after known i x := fun x hx => .inl hx
    refine ⟨hreads, fun next hflow => ?_⟩
    cases hflow with
    | pass _ => exact h.pred.knowing hmore
    | jump htarget hnext =>
      cases ht.symm.trans htarget
      exact (hl next hnext).pred.knowing hmore

theorem Safe.label (h : Safe full n known rest) : Safe full n known (.label l :: rest) :=
  .plain (h.knowing fun _ hx => .inl hx) rfl nofun

/-- A jump takes a step of its own, on which the induction over the rounds of a loop rests. -/
theorem Safe.jump (h : ∀ m < n, SafeAt full m known l) : Safe full n known (.jump l :: rest) := by
  cases n with
  | zero => trivial
  | succ n =>
    refine ⟨nofun, fun next hflow => ?_⟩
    cases hflow with
    | pass hp => cases hp
    | jump htarget hnext =>
      cases htarget
      exact (h n (Nat.lt_succ_self n) next hnext).knowing fun _ hx => .inl hx

/-- A path ends with a return. -/
theorem Safe.ret {v : Value} (hreads : ∀ x, v = .var x → known x) : Safe full n known (.ret v :: rest) := by
  cases n with
  | zero => trivial
  | succ n =>
    refine ⟨fun x hx => hreads x (List.mem_singleton.1 hx).symm, fun next hflow => ?_⟩
    cases hflow with
    | pass hp => cases hp
    | jump htarget _ => cases htarget

end Safe

/-! ## Names -/

/-- The value is no temporary, or one with a number from `lo` to below `hi`. -/
def Value.DrawnFrom (lo hi : Nat) (v : Value) : Prop :=
  ∀ x, v = .var x → IsSource x ∨ ∃ n, lo ≤ n ∧ n < hi ∧ x = numbered "tmp" n

/-- All values that the code names are drawn from there. -/
def CodeDrawn (lo hi : Nat) (code : List Instr) : Prop := ∀ i ∈ code, ∀ v ∈ i.values, v.DrawnFrom lo hi

section Drawn

variable {lo lo' hi hi' : Nat} {i : Instr} {code more : List Instr} {v : Value}

theorem Value.DrawnFrom.widen (h : v.DrawnFrom lo hi) (hlo : lo' ≤ lo) (hhi : hi ≤ hi') : v.DrawnFrom lo' hi' := by
  intro x hx
  rcases h x hx with h | ⟨n, hn, hn', rfl⟩
  · exact .inl h
  · exact .inr ⟨n, by omega, by omega, rfl⟩

@[simp] theorem Value.drawnFrom_int (v : Int32) : (Value.int v).DrawnFrom lo hi := nofun

@[simp] theorem codeDrawn_nil : CodeDrawn lo hi [] := by simp [CodeDrawn]

@[simp] theorem codeDrawn_cons :
    CodeDrawn lo hi (i :: code) ↔ (∀ v ∈ i.values, v.DrawnFrom lo hi) ∧ CodeDrawn lo hi code := List.forall_mem_cons

@[simp] theorem codeDrawn_append : CodeDrawn lo hi (code ++ more) ↔ CodeDrawn lo hi code ∧ CodeDrawn lo hi more :=
  List.forall_mem_append

end Drawn

/-! ## Pieces of code -/

/-- What holds around a piece of code in the loop `current`: control may go to the labels of that loop. -/
structure Around (current : Option String) (full : List Instr) (n : Nat) (known : String → Prop) : Prop where
  nodup : (labels full).Nodup
  source : ∀ x, IsSource x → known x
  loop : ∀ id ∈ current, SafeAt full n known (continueLabel id) ∧ SafeAt full n known (breakLabel id)

theorem Around.knowing {current : Option String} {full : List Instr} {n : Nat} {known known' : String → Prop}
    (h : Around current full n known) (hle : ∀ x, known x → known' x) : Around current full n known' := by
  refine ⟨h.nodup, fun x hx => hle x (h.source x hx), fun id hid => ?_⟩
  exact ⟨(h.loop id hid).1.knowing hle, (h.loop id hid).2.knowing hle⟩

theorem Around.mono {current : Option String} {full : List Instr} {n m : Nat} {known : String → Prop}
    (h : Around current full n known) (hle : m ≤ n) : Around current full m known :=
  ⟨h.nodup, h.source, fun id hid => ⟨(h.loop id hid).1.mono hle, (h.loop id hid).2.mono hle⟩⟩

/-- Code that is in no loop needs nothing of the loop around it. -/
theorem Around.leave {current : Option String} {full : List Instr} {n : Nat} {known : String → Prop}
    (h : Around current full n known) : Around none full n known := ⟨h.nodup, h.source, nofun⟩

/-- What is known when some values are. -/
def having (known : String → Prop) (vs : List Value) (x : String) : Prop := known x ∨ .var x ∈ vs

theorem having_nil {known : String → Prop} {x : String} : having known [] x ↔ known x := by simp [having]

theorem having_self {known : String → Prop} {v : Value} {x : String} (h : v = .var x) : having known [v] x :=
  .inr (List.mem_singleton.2 h.symm)

theorem after_of_having {known : String → Prop} {i : Instr} {dst : Value} (hd : i.dst? = some dst) {x : String}
    (h : having known [dst] x) : after known i x := by
  refine h.imp_right fun hx => ?_
  rw [hd, List.mem_singleton.1 hx]

/-- A copy of what is known, in front of a point that needs the copy. -/
theorem Safe.copy {full rest : List Instr} {n : Nat} {known known' : String → Prop} {v dst : Value}
    (h : Safe full n (having known [dst]) rest) (hle : ∀ x, known x → known' x) (hv : ∀ x, v = .var x → known' x) :
    Safe full n known' (.copy v dst :: rest) := by
  refine .plain (h.knowing fun x hx => ?_) rfl fun x hx => hv x (List.mem_singleton.1 hx).symm
  exact after_of_having rfl (hx.imp_left (hle x))

/-- The value is no temporary. -/
def Value.IsSource (v : Value) : Prop := ∀ x, v = .var x → Ir.IsSource x

@[simp] theorem Value.isSource_int (v : Int32) : (Value.int v).IsSource := nofun

theorem Value.isSource_ofTy (v : Int32) (ty : Ty) : (Value.ofTy v ty).IsSource := by
  cases ty <;> exact nofun

theorem Value.IsSource.drawnFrom {v : Value} (h : v.IsSource) (lo hi : Nat) : v.DrawnFrom lo hi :=
  fun x hx => .inl (h x hx)

/-- A piece of code in the loop `current`, and values that it leaves. Its temporaries have numbers from `lo` to below
`hi`. It is safe wherever it stands, if the code behind it is safe when the values are known. -/
structure Supplies (current : Option String) (lo hi : Nat) (code : List Instr) (vs : List Value) : Prop where
  room : lo ≤ hi
  values : ∀ v ∈ vs, v.DrawnFrom lo hi
  drawn : CodeDrawn lo hi code
  safe : ∀ {full rest : List Instr} {n : Nat} {known : String → Prop}, Around current full n known →
    code ++ rest <:+ full → Safe full n (having known vs) rest → Safe full n known (code ++ rest)

namespace Supplies

variable {current : Option String} {lo mid hi lo' hi' : Nat} {code more : List Instr} {vs ws : List Value} {i j : Instr}
  {dst : Value}

theorem nil (current : Option String) (n : Nat) (h : ∀ v ∈ vs, v.IsSource) : Supplies current n n [] vs := by
  refine ⟨le_rfl, fun v hv => (h v hv).drawnFrom n n, codeDrawn_nil, fun haround _ hrest => ?_⟩
  exact hrest.knowing fun x hx => hx.elim id fun hv => haround.source x (h _ hv x rfl)

theorem empty (current : Option String) (n : Nat) : Supplies current n n [] [] := .nil current n (by simp)

/-- Only constants, texts and variables need no code. -/
theorem source {v : Value} (hv : v.IsSource) (n : Nat) : Supplies none n n [] [v] := .nil none n (by simpa using hv)

theorem widen (h : Supplies current lo hi code vs) (hlo : lo' ≤ lo) (hhi : hi ≤ hi') :
    Supplies current lo' hi' code vs :=
  ⟨Nat.le_trans hlo (Nat.le_trans h.room hhi), fun v hv => (h.values v hv).widen hlo hhi,
    fun i hmem v hv => (h.drawn i hmem v hv).widen hlo hhi, h.safe⟩

/-- Some values are not needed. -/
theorem drop (h : Supplies current lo hi code vs) (hle : ws ⊆ vs) : Supplies current lo hi code ws := by
  refine ⟨h.room, fun v hv => h.values v (hle hv), h.drawn, fun haround hs hrest => h.safe haround hs ?_⟩
  exact hrest.knowing fun x hx => hx.imp_right fun hv => hle hv

theorem inLoop (h : Supplies none lo hi code vs) (current : Option String) : Supplies current lo hi code vs :=
  ⟨h.room, h.values, h.drawn, fun haround => h.safe haround.leave⟩

/-- One piece after the other. -/
theorem append (h : Supplies current lo mid code vs) (h' : Supplies current mid hi more ws) :
    Supplies current lo hi (code ++ more) (vs ++ ws) := by
  have hfront := h.widen le_rfl h'.room
  have hback := h'.widen h.room le_rfl
  refine ⟨hfront.room, List.forall_mem_append.2 ⟨hfront.values, hback.values⟩,
    codeDrawn_append.2 ⟨hfront.drawn, hback.drawn⟩, fun {full rest n known} haround hs hrest => ?_⟩
  rw [List.append_assoc] at hs ⊢
  refine h.safe haround hs (h'.safe (haround.knowing fun _ => .inl) (suffix_right hs) (hrest.knowing fun x hx => ?_))
  rcases hx with hx | hx
  · exact .inl (.inl hx)
  · exact (List.mem_append.1 hx).elim (fun hv => .inl (.inr hv)) .inr

/-- An instruction that reads what is known and leaves one value more. -/
theorem instr (h : Supplies current lo mid code vs) (ht : i.target? = none) (hd : i.dst? = some dst)
    (hdst : dst.DrawnFrom lo hi) (hle : mid ≤ hi) (hreads : ∀ v ∈ i.reads, v ∈ vs ∨ v.IsSource) :
    Supplies current lo hi (code ++ [i]) (dst :: vs) := by
  have hwide := h.widen le_rfl hle
  have hnamed : ∀ v ∈ i.values, v.DrawnFrom lo hi := by
    intro v hv
    rcases Instr.mem_values.1 hv with hv | hv
    · exact (hreads v hv).elim (hwide.values v) fun hs => hs.drawnFrom lo hi
    · rw [hd, Option.some.injEq] at hv
      exact hv ▸ hdst
  have hdrawn : CodeDrawn lo hi (code ++ [i]) :=
    codeDrawn_append.2 ⟨hwide.drawn, codeDrawn_cons.2 ⟨hnamed, codeDrawn_nil⟩⟩
  have hvalues : ∀ v ∈ dst :: vs, v.DrawnFrom lo hi := List.forall_mem_cons.2 ⟨hdst, hwide.values⟩
  refine ⟨hwide.room, hvalues, hdrawn, fun {full rest n known} haround hs hrest => ?_⟩
  rw [List.append_assoc, List.singleton_append] at hs ⊢
  refine h.safe haround hs (.plain (hrest.knowing fun x hx => ?_) ht fun x hx => ?_)
  · rcases hx with hx | hx
    · exact .inl (.inl hx)
    · rcases List.mem_cons.1 hx with hx | hx
      · exact .inr (hx ▸ hd)
      · exact .inl (.inr hx)
  · exact (hreads _ hx).elim .inr fun hs => .inl (haround.source x (hs x rfl))

/-- The same with a temporary that was made just before. -/
theorem temp {made : Nat} (h : Supplies current lo mid code vs) (ht : i.target? = none) (hd : i.dst? = some dst)
    (hmid : mid ≤ made) (hdst : made ≤ hi ∧ dst.DrawnFrom made hi) (hreads : ∀ v ∈ i.reads, v ∈ vs ∨ v.IsSource) :
    Supplies current lo hi (code ++ [i]) [dst] := by
  have hlo : lo ≤ made := Nat.le_trans h.room hmid
  exact (h.instr ht hd (hdst.2.widen hlo le_rfl) (Nat.le_trans hmid hdst.1) hreads).drop (by simp)

/-- A return of a value that is known. -/
theorem ret {v : Value} (h : Supplies current lo hi code vs) (hv : v ∈ vs ∨ v.IsSource) :
    Supplies current lo hi (code ++ [.ret v]) [] := by
  have hnamed : v.DrawnFrom lo hi := hv.elim (h.values v) fun hs => hs.drawnFrom lo hi
  refine ⟨h.room, by simp, codeDrawn_append.2 ⟨h.drawn, by simpa [Instr.values] using hnamed⟩,
    fun {full rest n known} haround hs _ => ?_⟩
  rw [List.append_assoc, List.singleton_append] at hs ⊢
  refine h.safe haround hs (.ret fun x hx => ?_)
  subst hx
  exact hv.elim .inr fun hs => .inl (haround.source x (hs x rfl))

/-- A jump to a label of the loop around it. -/
theorem jump {id l : String} (n : Nat) (hid : id ∈ current) (hl : l = continueLabel id ∨ l = breakLabel id) :
    Supplies current n n [.jump l] [] := by
  refine ⟨le_rfl, by simp, by simp [Instr.values], fun haround _ _ => .jump fun m hm => ?_⟩
  rcases hl with rfl | rfl
  · exact (haround.loop id hid).1.mono (Nat.le_of_lt hm)
  · exact (haround.loop id hid).2.mono (Nat.le_of_lt hm)

section Layouts

variable {start loop isFalse done : String} {left right test first last yes no : List Instr × Value}
  {body other : List Instr} {var one : Value}

/-- Both logical operators: two branches `i` and `j` to the same label. -/
theorem shortCircuit {x y : Value} (hti : i.target? = some isFalse) (htj : j.target? = some isFalse)
    (hiv : i.values = [left.2]) (hjv : j.values = [right.2]) (hx : x.IsSource) (hy : y.IsSource)
    (hdst : dst.DrawnFrom lo hi) (hl : Supplies none lo hi left.1 [left.2])
    (hr : Supplies none lo hi right.1 [right.2]) : Supplies none lo hi (left.1 ++ i :: right.1 ++
      [j, .copy x dst, .jump done, .label isFalse, .copy y dst, .label done]) [dst] := by
  have happ : ∀ rest, left.1 ++ i :: right.1 ++
      [j, .copy x dst, .jump done, .label isFalse, .copy y dst, .label done] ++ rest =
      left.1 ++ (i :: (right.1 ++ (j :: .copy x dst :: .jump done :: .label isFalse :: .copy y dst ::
        .label done :: rest))) := by
    simp
  have hreads : ∀ {k : Instr} {v : Value} {known : String → Prop}, k.values = [v] →
      ∀ x, .var x ∈ k.reads → having known [v] x := fun hk x hx => .inr (hk ▸ Instr.mem_values.2 (.inl hx))
  refine ⟨hl.room, by simpa using hdst, ?_, fun {full rest n known} haround hs hrest => ?_⟩
  · simp only [codeDrawn_append, codeDrawn_cons, hiv, hjv]
    simp [Instr.values, hl.drawn, hr.drawn, hl.values, hr.values, hx.drawnFrom, hy.drawnFrom, hdst]
  · rw [happ] at hs ⊢
    have hs₁ := suffix_tail (suffix_right hs)
    have hs₂ := suffix_tail (suffix_tail (suffix_tail (suffix_right hs₁)))
    have hs₃ := suffix_tail (suffix_tail hs₂)
    -- Both ways to write the result, and what is behind them.
    have hx' : ∀ z, x = .var z → known z := fun z hz => haround.source z (hx z hz)
    have hy' : ∀ z, y = .var z → known z := fun z hz => haround.source z (hy z hz)
    have hfalse : SafeAt full n known isFalse := (hrest.label.copy (fun _ => id) hy').behind haround.nodup hs₂
    have hdone : SafeAt full n (having known [dst]) done := hrest.behind haround.nodup hs₃
    have hjump : ∀ {point : List Instr}, Safe full n (having known [dst]) (.jump done :: point) :=
      .jump fun m hm => hdone.mono (Nat.le_of_lt hm)
    refine hl.safe haround hs (.branch ?_ hti (hfalse.knowing fun _ => .inl) (hreads hiv))
    refine hr.safe (haround.knowing fun _ => .inl) hs₁ ?_
    refine .branch ?_ htj (hfalse.knowing fun _ h => .inl (.inl h)) (hreads hjv)
    exact hjump.copy (fun _ h => .inl (.inl h)) fun z hz => .inl (.inl (hx' z hz))

theorem cond (hdst : dst.DrawnFrom lo hi) (hc : Supplies none lo hi test.1 [test.2])
    (hy : Supplies none lo hi yes.1 [yes.2]) (hn : Supplies none lo hi no.1 [no.2]) :
    Supplies none lo hi (condCode isFalse done test yes no dst) [dst] := by
  refine ⟨hc.room, by simpa using hdst, ?_, fun {full rest n known} haround hs hrest => ?_⟩
  · simp only [condCode, codeDrawn_append, codeDrawn_cons, Instr.values, List.forall_mem_cons]
    simp [hc.drawn, hy.drawn, hn.drawn, hc.values, hy.values, hn.values, hdst]
  · rw [condCode_append] at hs ⊢
    have hs₁ := suffix_tail (suffix_right hs)
    have hs₂ := suffix_tail (suffix_tail (suffix_right hs₁))
    have hs₃ := suffix_tail (suffix_right (suffix_tail hs₂))
    have hdone : SafeAt full n (having known [dst]) done := hrest.behind haround.nodup hs₃
    have hfalse : SafeAt full n known isFalse :=
      (hn.safe haround (suffix_tail hs₂) (hrest.label.copy (fun _ => .inl) fun _ => having_self)).behind
        haround.nodup hs₂
    refine hc.safe haround hs (.branch ?_ rfl (hfalse.knowing fun _ => .inl) fun _ => .inr)
    refine hy.safe (haround.knowing fun _ => .inl) hs₁ (.copy ?_ (fun _ hx => .inl (.inl hx)) fun _ => having_self)
    exact .jump fun m hm => hdone.mono (Nat.le_of_lt hm)

theorem ifThen (hc : Supplies none lo hi test.1 [test.2]) (hb : Supplies current lo hi body []) :
    Supplies current lo hi (ifThenCode done test body) [] := by
  refine ⟨hc.room, by simp, ?_, fun {full rest n known} haround hs hrest => ?_⟩
  · simp only [ifThenCode, codeDrawn_append, codeDrawn_cons, Instr.values, List.forall_mem_cons]
    simp [hc.drawn, hb.drawn, hc.values]
  · rw [ifThenCode_append] at hs ⊢
    have hs₁ := suffix_tail (suffix_right hs)
    have hbehind : Safe full n (having known [test.2]) rest := hrest.knowing fun _ hx => .inl (having_nil.1 hx)
    have hdone := hbehind.behind haround.nodup (suffix_right hs₁)
    refine hc.safe haround.leave hs (.branch ?_ rfl hdone fun _ => .inr)
    exact hb.safe (haround.knowing fun _ => .inl) hs₁ (hbehind.label.knowing fun _ => .inl)

theorem ifElse (hc : Supplies none lo hi test.1 [test.2]) (hb : Supplies current lo hi body [])
    (ho : Supplies current lo hi other []) : Supplies current lo hi (ifElseCode isFalse done test body other) [] := by
  refine ⟨hc.room, by simp, ?_, fun {full rest n known} haround hs hrest => ?_⟩
  · simp only [ifElseCode, codeDrawn_append, codeDrawn_cons, Instr.values, List.forall_mem_cons]
    simp [hc.drawn, hb.drawn, ho.drawn, hc.values]
  · rw [ifElseCode_append] at hs ⊢
    have hs₁ := suffix_tail (suffix_right hs)
    have hs₂ := suffix_tail (suffix_right hs₁)
    have hs₃ := suffix_right (suffix_tail hs₂)
    have hbehind : Safe full n (having known [test.2]) rest := hrest.knowing fun _ hx => .inl (having_nil.1 hx)
    have hinner : Around current full n (having known [test.2]) := haround.knowing fun _ => .inl
    have hdone := hbehind.behind haround.nodup hs₃
    have hfalse : SafeAt full n (having known [test.2]) isFalse :=
      (ho.safe hinner (suffix_tail hs₂) (hbehind.label.knowing fun _ => .inl)).behind haround.nodup hs₂
    refine hc.safe haround.leave hs (.branch ?_ rfl hfalse fun _ => .inr)
    refine hb.safe hinner hs₁ (.jump fun m hm => ?_)
    exact (hdone.mono (Nat.le_of_lt hm)).knowing fun _ => .inl

/-- A round of a loop begins at its label, and its test leads out of it. What follows a round is in `tail`. -/
theorem rounds {loop : String} {test tail full rest : List Instr} {v : Value} {n : Nat} {known : String → Prop}
    (haround : Around none full n known)
    (hs : .label start :: (test ++ (.jumpIfZero v (breakLabel loop) :: (body ++ (.label (continueLabel loop) ::
      (tail ++ (.jump start :: .label (breakLabel loop) :: rest)))))) <:+ full)
    (hc : Supplies none lo hi test [v]) (hb : Supplies (some loop) lo hi body []) (ht : Supplies none lo hi tail [])
    (hrest : Safe full n known rest) : ∀ m ≤ n, Safe full m known (test ++ (.jumpIfZero v (breakLabel loop) ::
      (body ++ (.label (continueLabel loop) :: (tail ++ (.jump start :: .label (breakLabel loop) :: rest)))))) := by
  have hs₁ := suffix_tail (suffix_right (suffix_tail hs))
  have hs₂ := suffix_right hs₁
  have hs₃ := suffix_tail (suffix_right (suffix_tail hs₂))
  intro m
  -- The number of steps that are left goes down with every round.
  induction m using Nat.strongRecOn with
  | ind m ih =>
    intro hm
    have hbreak : SafeAt full m known (breakLabel loop) := (hrest.mono hm).behind haround.nodup hs₃
    have hnext : Safe full m known (tail ++ (.jump start :: .label (breakLabel loop) :: rest)) := by
      refine ht.safe (haround.mono hm) (suffix_tail hs₂) (.jump fun k hk => ?_)
      exact ((ih k hk (by omega)).behind haround.nodup hs).knowing fun _ => .inl
    have hcontinue : SafeAt full m known (continueLabel loop) := hnext.behind haround.nodup hs₂
    have hinner : Around (some loop) full m (having known [v]) := by
      refine ⟨haround.nodup, fun x hx => .inl (haround.source x hx), fun id hid => ?_⟩
      cases hid
      exact ⟨hcontinue.knowing fun _ => .inl, hbreak.knowing fun _ => .inl⟩
    refine hc.safe (haround.mono hm) (suffix_tail hs) (.branch ?_ rfl (hbreak.knowing fun _ => .inl) fun _ => .inr)
    exact hb.safe hinner hs₁ (hnext.label.knowing fun _ hx => .inl (.inl hx))

theorem whileLoop (hc : Supplies none lo hi test.1 [test.2]) (hb : Supplies (some loop) lo hi body []) :
    Supplies current lo hi (whileCode start loop test body) [] := by
  refine ⟨hc.room, by simp, ?_, fun {full rest n known} haround hs hrest => ?_⟩
  · simp only [whileCode, codeDrawn_append, codeDrawn_cons]
    simp [Instr.values, hc.drawn, hb.drawn, hc.values]
  · rw [whileCode_append] at hs ⊢
    have hbehind : Safe full n known rest := hrest.knowing fun _ => having_nil.1
    have htail : Supplies none lo hi [] [] := (Supplies.empty none lo).widen le_rfl hc.room
    exact (rounds haround.leave hs hc hb htail hbehind n le_rfl).label

theorem rangeLoop (hvar : var.IsSource) (hone : one.IsSource) (hdst : dst.DrawnFrom lo hi)
    (hf : Supplies none lo hi first.1 [first.2]) (hl : Supplies none lo hi last.1 [last.2])
    (hb : Supplies (some loop) lo hi body []) :
    Supplies current lo hi (rangeCode start loop var one dst first last body) [] := by
  have htest : Supplies none lo hi (last.1 ++ [.binary (.compare .le) var last.2 dst]) [dst] := by
    refine (hl.instr rfl rfl hdst le_rfl ?_).drop (by simp)
    simp [Instr.reads, hvar]
  have htail : Supplies none lo hi [.binary (.arith .add) var one var] [] := by
    have hnone : Supplies none lo hi [] [] := (Supplies.empty none lo).widen le_rfl hf.room
    refine (hnone.instr rfl rfl (hvar.drawnFrom lo hi) le_rfl ?_).drop (by simp)
    simp [Instr.reads, hvar, hone]
  have happ : ∀ rest, rangeCode start loop var one dst first last body ++ rest =
      first.1 ++ (.copy first.2 var :: .label start :: ((last.1 ++ [.binary (.compare .le) var last.2 dst]) ++
        (.jumpIfZero dst (breakLabel loop) :: (body ++ (.label (continueLabel loop) ::
        ([.binary (.arith .add) var one var] ++ (.jump start :: .label (breakLabel loop) :: rest))))))) := by
    simp [rangeCode_append]
  refine ⟨hf.room, by simp, ?_, fun {full rest n known} haround hs hrest => ?_⟩
  · simp only [rangeCode, codeDrawn_append, codeDrawn_cons]
    simp [Instr.values, hf.drawn, hf.values, hl.drawn, hl.values, hb.drawn, hvar.drawnFrom, hone.drawnFrom, hdst]
  · rw [happ] at hs ⊢
    have hbehind : Safe full n (having known [first.2]) rest := hrest.knowing fun _ hx => .inl (having_nil.1 hx)
    have hinner : Around none full n (having known [first.2]) := haround.leave.knowing fun _ => .inl
    have hloop := rounds hinner (suffix_tail (suffix_right hs)) htest hb htail hbehind n le_rfl
    exact hf.safe haround.leave hs (.plain (hloop.label.knowing fun _ => .inl) rfl fun _ => .inr)

end Layouts

end Supplies

end Khel.Ir

namespace Khel

open Ir

/-! ## Expressions -/

mutual
/-- The variables of the expression have such names. -/
def Expr.VarsIn (names : String → Prop) : Expr → Prop
  | .int .. | .long .. | .str .. => True
  | .var _ x => names x
  | .call _ _ args => Expr.AllVarsIn names args
  | .unary _ _ a | .cast _ _ a => a.VarsIn names
  | .binary _ _ l r | .assign _ l r | .range _ l r => l.VarsIn names ∧ r.VarsIn names
  | .cond _ c t f => c.VarsIn names ∧ t.VarsIn names ∧ f.VarsIn names

/-- So do those of all expressions of a list. -/
def Expr.AllVarsIn (names : String → Prop) : List Expr → Prop
  | [] => True
  | e :: es => e.VarsIn names ∧ Expr.AllVarsIn names es
end

namespace Ir.Lowering

theorem Mints.temps_le {α : Type} {m : Lowering α} (h : m.Mints) (st : LoweringState) :
    Ensures m st (fun _ => True) fun _ st' => st.temps ≤ st'.temps := by
  refine (h st).mono fun _ _ hreaches => hreaches.keeps (P := fun st' => st.temps ≤ st'.temps) ?_ le_rfl
  intro st₁ st₂ hstep hle
  cases hstep with
  | temp ty => exact Nat.le_succ_of_le hle
  | label => exact hle

theorem temp_drawn (ty : Ty) (st : LoweringState) : Ensures (temp ty) st (fun _ => True) fun dst st' =>
    st.temps ≤ st'.temps ∧ dst.DrawnFrom st.temps st'.temps := by
  refine (temp_ensures ty st).mono ?_
  rintro dst st' ⟨rfl, _, htemps, _⟩
  refine ⟨by omega, ?_⟩
  rintro x ⟨⟩
  exact .inr ⟨st.temps, le_rfl, by omega, rfl⟩

end Ir.Lowering

open Ir.Lowering

mutual
/-- The code of an expression leaves its value. -/
theorem Expr.lower_supplies : ∀ (e : Expr) (st : LoweringState), e.VarsIn IsSource →
    Ensures e.lower st (fun _ => True) fun r st' => Supplies none st.temps st'.temps r.1 [r.2]
  | .int .., st, _ | .long .., st, _ | .str .., st, _ => by
    rw [Expr.lower]
    exact .pure (.source (by rintro _ ⟨⟩) _)
  | .var _ x, st, hx => by
    rw [Expr.lower]
    refine .pure (.source ?_ _)
    rintro _ ⟨⟩
    exact hx
  | .call note f args, st, ha => by
    rw [Expr.lower]
    refine .bind (Expr.lowerAll_supplies args st ha) fun r st₁ h => ?_
    refine .bind ((Expr.recordedTy_mints _).temps_le st₁) fun ty st₂ h₁ => ?_
    exact .bind (temp_drawn ty st₂) fun dst st' hd => .pure (h.temp rfl rfl h₁ hd fun v => .inl)
  | .unary note op a, st, ha => by
    rw [Expr.lower]
    refine .bind (a.lower_supplies st ha) fun r st₁ h => ?_
    refine .bind ((Expr.recordedTy_mints _).temps_le st₁) fun ty st₂ h₁ => ?_
    exact .bind (temp_drawn ty st₂) fun dst st' hd => .pure (h.temp rfl rfl h₁ hd fun v => .inl)
  | .binary _ .logicalAnd l r, st, ⟨hl, hr⟩ | .binary _ .logicalOr l r, st, ⟨hl, hr⟩ => by
    rw [Expr.lower]
    refine .bind ((label_mints _).temps_le st) fun target st₁ h₁ => ?_
    refine .bind ((label_mints _).temps_le st₁) fun done st₂ h₂ => ?_
    refine .bind (temp_drawn _ st₂) fun dst st₃ hd => ?_
    obtain ⟨h₃, hdst⟩ := hd
    refine .bind (l.lower_supplies st₃ hl) fun left st₄ hl => .bind (r.lower_supplies st₄ hr) fun right st' hr => ?_
    have hroom := hl.room
    have hroom' := hr.room
    exact .pure (.shortCircuit rfl rfl rfl rfl (Value.isSource_int _) (Value.isSource_int _)
      (hdst.widen (by omega) (by omega)) (hl.widen (by omega) hr.room) (hr.widen (by omega) le_rfl))
  | .binary note (.strict op) l r, st, ⟨hl, hr⟩ => by
    rw [Expr.lower]
    refine .bind (l.lower_supplies st hl) fun left st₁ hl => .bind (r.lower_supplies st₁ hr) fun right st₂ hr => ?_
    refine .bind ((Expr.recordedTy_mints _).temps_le st₂) fun ty st₃ h₃ => ?_
    refine .bind (temp_drawn ty st₃) fun dst st' hd => .pure ?_
    exact (hl.append hr).temp rfl rfl h₃ hd fun v => .inl
  | .assign _ target value, st, ⟨ht, hv⟩ => by
    unfold Expr.lower
    split
    · next x =>
      have hx : (Value.var x).IsSource := by
        rintro _ ⟨⟩
        exact ht
      refine .bind (value.lower_supplies st hv) fun r st' h => .pure ?_
      exact (h.instr rfl rfl (hx.drawnFrom _ _) le_rfl (by simp [Instr.reads])).drop (by simp)
    · exact .throw trivial
  | .cond note c t f, st, ⟨hc, ht, hf⟩ => by
    rw [Expr.lower]
    refine .bind ((label_mints _).temps_le st) fun isFalse st₁ h₁ => ?_
    refine .bind ((label_mints _).temps_le st₁) fun done st₂ h₂ => ?_
    refine .bind ((Expr.recordedTy_mints _).temps_le st₂) fun ty st₃ h₃ => ?_
    refine .bind (temp_drawn ty st₃) fun dst st₄ hd => ?_
    obtain ⟨h₄, hdst⟩ := hd
    refine .bind (c.lower_supplies st₄ hc) fun test st₅ hc => .bind (t.lower_supplies st₅ ht) fun yes st₆ ht => ?_
    refine .bind (f.lower_supplies st₆ hf) fun no st' hf => ?_
    have hroom := hc.room
    have hroom₁ := ht.room
    have hroom₂ := hf.room
    exact .pure (.cond (hdst.widen (by omega) (by omega)) (hc.widen (by omega) (by omega))
      (ht.widen (by omega) (by omega)) (hf.widen (by omega) le_rfl))
  | .range note l r, st, ⟨hl, hr⟩ => by
    rw [Expr.lower]
    refine .bind (l.lower_supplies st hl) fun first st₁ hl => .bind (r.lower_supplies st₁ hr) fun last st₂ hr => ?_
    refine .bind ((Expr.recordedTy_mints _).temps_le st₂) fun ty st₃ h₃ => ?_
    refine .bind (temp_drawn ty st₃) fun dst st' hd => .pure ?_
    have hcount : Supplies none st.temps st'.temps (first.1 ++ last.1 ++ [.binary (.arith .sub) last.2 first.2 dst])
        [dst] := (hl.append hr).temp rfl rfl h₃ hd (by simp [Instr.reads])
    have hdst : dst.DrawnFrom st.temps st'.temps := hcount.values dst (by simp)
    have hone := hcount.instr (i := .binary (.arith .add) dst (.ofTy 1 ty) dst) rfl rfl hdst le_rfl
      (by simp [Instr.reads, Value.isSource_ofTy])
    rw [List.append_assoc] at hone
    exact hone.drop (by simp)
  | .cast _ target a, st, ha => by
    rw [Expr.lower]
    refine .bind (a.lower_supplies st ha) fun r st₁ h => .bind (a.recordedTy_mints.temps_le st₁) fun ty st₂ h₁ => ?_
    split
    · exact .bind (temp_drawn _ st₂) fun dst st' hd => .pure (h.temp rfl rfl h₁ hd fun v => .inl)
    · exact .bind (temp_drawn _ st₂) fun dst st' hd => .pure (h.temp rfl rfl h₁ hd fun v => .inl)
    · exact .pure (h.widen le_rfl h₁)

theorem Expr.lowerAll_supplies : ∀ (es : List Expr) (st : LoweringState), Expr.AllVarsIn IsSource es →
    Ensures (Expr.lowerAll es) st (fun _ => True) fun r st' => Supplies none st.temps st'.temps r.1 r.2
  | [], st, _ => by
    rw [Expr.lowerAll]
    exact .pure (.empty none _)
  | e :: es, st, ⟨he, hes⟩ => by
    rw [Expr.lowerAll]
    refine .bind (e.lower_supplies st he) fun r st₁ h => .bind (Expr.lowerAll_supplies es st₁ hes) fun rs _ hs => ?_
    exact .pure (h.append hs)
end

end Khel
