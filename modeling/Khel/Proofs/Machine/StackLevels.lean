import Khel.Proofs.Machine.Legalized
import Khel.Proofs.Machine.Memory

/-!
# How deep the stack is

A function allocates its frame first, and from then on only its calls move the stack pointer: they make room for
padding, push arguments, and take everything back. Here code is followed along every path through a function. At every
point the code that is left tells how many bytes lie on the stack below the frame.

* `Machine.Follows`: where control may go.
* `Machine.Levelled`: code that brings the stack back to the frame.
* `Machine.Follows.atLevel`, `Machine.atLevel_of_path`: one step, and a whole path, keep the level known.
-/

namespace Khel.Machine

/-! ## Paths -/

/-- By how many bytes the stack pointer lies below the frame pointer. -/
def State.depth (m : State) : BitVec 64 := m.reg .bp - m.reg .sp

/-- A point of a function: the code that is left, and the state. -/
abbrev Point := List Instr × State

/-- Where control may go from a point of the function `code`. A conditional jump may go either way, a jump to any place
where its label stands, and an instruction that has no result is passed over. A call comes back with the same stack and
frame pointers, and everything else may have changed. -/
inductive Follows (world : World) (code : List Instr) : Point → Point → Prop where
  | next {i : Instr} {rest : List Instr} {m m' : State} : i.step world m = .ok (.next, m') →
    Follows world code (i :: rest, m) (rest, m')
  | stuck {i : Instr} {rest : List Instr} {m m' : State} : i.step world m = .error m' →
    Follows world code (i :: rest, m) (rest, m)
  | jump {l : String} {rest target : List Instr} {m : State} : .label l :: target <:+ code →
    Follows world code (.jmp l :: rest, m) (.label l :: target, m)
  | branch {c : Cond} {l : String} {rest target : List Instr} {m : State} : .label l :: target <:+ code →
    Follows world code (.jcc c l :: rest, m) (.label l :: target, m)
  | pass {c : Cond} {l : String} {rest : List Instr} {m : State} :
    Follows world code (.jcc c l :: rest, m) (rest, m)
  | call {f : String} {rest : List Instr} {m m' : State} : m'.reg .sp = m.reg .sp → m'.reg .bp = m.reg .bp →
    Follows world code (.call f :: rest, m) (rest, m')

/-! ## What moves the stack pointer -/

/-- Is it a push, or does it add to or subtract from the stack pointer? -/
def Instr.movesStack : Instr → Bool
  | .push _ => true
  | .binary op w _ dst => op ≠ .mul && w = .quad && dst = .reg .sp
  | _ => false

/-- Does it only compute, and write neither the stack pointer nor the frame pointer? -/
def Instr.isQuiet : Instr → Bool
  | .mov _ _ dst | .movsx _ dst | .unary _ _ dst | .binary _ _ _ dst | .setcc _ dst => dst ≠ .reg .sp && dst ≠ .reg .bp
  | .cmp .. | .idiv .. | .cdq _ => true
  | .jmp _ | .jcc .. | .label _ | .push _ | .call _ | .ret => false

/-- Is it a place where control joins or parts, within the function or at its end? -/
def Instr.isTurn : Instr → Bool
  | .label _ | .jmp _ | .jcc .. | .ret => true
  | _ => false

theorem Instr.movesStack_of_quiet {i : Instr} (h : i.isQuiet = true) : i.movesStack = false := by
  cases i with
  | binary op w src dst =>
    have hdst : dst ≠ .reg .sp := by
      rintro rfl
      cases h
    simp [Instr.movesStack, hdst]
  | push _ => cases h
  | _ => rfl

theorem Instr.isTurn_of_quiet {i : Instr} (h : i.isQuiet = true) : i.isTurn = false := by
  cases i <;> first | rfl | cases h

section Quiet

variable {world : World} {m m' : State} {r : Register}

theorem State.reg_of_write {w : Width} {v : Word w} {o : Operand} (h : m.write world w v o = some m')
    (hr : o ≠ .reg r) : m'.reg r = m.reg r := by
  cases o with
  | reg r' =>
    cases h
    exact Function.update_of_ne (fun he : r = r' => hr (he ▸ rfl)) ..
  | pseudo x =>
    simp only [State.write, Option.bind_eq_bind, Option.bind_eq_some_iff] at h
    obtain ⟨_, _, h⟩ := h
    cases h
    rfl
  | stack _ | data _ =>
    cases h
    exact congrFun (State.reg_storeBytes ..) r
  | imm _ | str _ => cases h

theorem State.reg_of_writeByte {b : BitVec 8} {o : Operand} (h : m.writeByte world b o = some m')
    (hr : o ≠ .reg r) : m'.reg r = m.reg r := by
  cases o with
  | reg r' =>
    cases h
    exact Function.update_of_ne (fun he : r = r' => hr (he ▸ rfl)) ..
  | pseudo x =>
    cases h
    rfl
  | stack _ | data _ =>
    cases h
    exact congrFun (State.reg_storeBytes ..) r
  | imm _ | str _ => cases h

/-- What only computes falls through and leaves the stack and frame pointers alone. -/
theorem Instr.reg_of_quiet {i : Instr} (hi : i.isQuiet = true) {flow : Flow} (h : i.exec world m = some (flow, m'))
    (hr : r = .sp ∨ r = .bp) : m'.reg r = m.reg r := by
  have hax : Operand.reg .ax ≠ .reg r := by rcases hr with rfl | rfl <;> decide
  have hdx : Operand.reg .dx ≠ .reg r := by rcases hr with rfl | rfl <;> decide
  have hdst : ∀ dst : Operand, (dst ≠ .reg .sp && dst ≠ .reg .bp) = true → dst ≠ .reg r := by
    rintro dst hdst rfl
    rcases hr with rfl | rfl <;> simp at hdst
  cases i
  case jmp | jcc | label | push | call | ret => cases hi
  all_goals
    simp only [Instr.exec, Option.bind_eq_bind, Option.bind_eq_some_iff, Option.pure_def, Option.some.injEq,
      Prod.mk.injEq] at h
  case mov w src dst =>
    obtain ⟨v, _, m₁, hw, _, rfl⟩ := h
    exact State.reg_of_write hw (hdst dst hi)
  case movsx src dst =>
    obtain ⟨v, _, m₁, hw, _, rfl⟩ := h
    exact State.reg_of_write (w := .quad) hw (hdst dst hi)
  case unary op w dst =>
    obtain ⟨v, _, m₁, hw, _, rfl⟩ := h
    have hreg := State.reg_of_write hw (hdst dst hi)
    split <;> exact hreg
  case binary op w src dst =>
    obtain ⟨a, _, b, _, m₁, hw, _, rfl⟩ := h
    have hreg := State.reg_of_write hw (hdst dst hi)
    exact hreg
  case setcc c dst =>
    obtain ⟨v, _, m₁, hw, _, rfl⟩ := h
    exact State.reg_of_writeByte hw (hdst dst hi)
  case cmp w a b =>
    obtain ⟨a, _, b, _, _, rfl⟩ := h
    rfl
  case cdq w =>
    obtain ⟨m₁, hw, _, rfl⟩ := h
    exact State.reg_of_write hw hdx
  case idiv w a =>
    obtain ⟨d, _, q, _, m₁, hw, m₂, hw', _, rfl⟩ := h
    exact (State.reg_of_write hw' hdx).trans (State.reg_of_write hw hax)

end Quiet

/-! ## Levels -/

/-- The source of a change of the stack pointer is `n`: a constant, or what the scratch register holds. -/
def Counts (scratch : BitVec 64) (src : Operand) (n : Nat) : Prop :=
  src = .imm (Int64.ofNat n) ∨ src = srcScratch ∧ scratch = BitVec.ofNat 64 n

theorem Counts.read {m : State} {src : Operand} {n : Nat} (h : Counts (m.reg .r10) src n) (world : World) :
    m.read world .quad src = some (BitVec.ofNat 64 n) := by
  rcases h with rfl | ⟨rfl, hs⟩
  · simp [State.read, Width.bits]
  · simp [State.read, srcScratch, hs, Width.bits]

theorem Counts.unique {s : BitVec 64} {src : Operand} {n n' : Nat} (h : Counts s src n) (h' : Counts s src n')
    (hn : n < 2 ^ 63) (hn' : n' < 2 ^ 63) : n = n' := by
  let m : State := ⟨fun _ => s, none, fun _ => .long 0, fun _ => 0⟩
  let world : World := ⟨fun _ => 0, fun _ => 0, fun _ _ t => (0, t)⟩
  have hread := (Counts.read (m := m) h world).symm.trans (Counts.read (m := m) h' world)
  have hnat := congrArg BitVec.toNat (Option.some.inj hread)
  simp only [BitVec.toNat_ofNat] at hnat
  omega

/-- With `scratch` in `r10` and `excess` bytes on the stack below the frame, the code brings the stack back to the frame
at its end, and has it there wherever control joins or parts. At calls the excess is a multiple of sixteen, and it never
grows beyond what can be counted. -/
inductive Levelled : (scratch : BitVec 64) → (excess : Nat) → List Instr → Prop where
  | nil {s : BitVec 64} : Levelled s 0 []
  | quiet {s : BitVec 64} {e : Nat} {i : Instr} {rest : List Instr} : i.isQuiet = true → (∀ s', Levelled s' e rest) →
    Levelled s e (i :: rest)
  | load {s : BitVec 64} {e : Nat} {v : Int64} {rest : List Instr} : Levelled v.toBitVec e rest →
    Levelled s e (.mov .quad (.imm v) srcScratch :: rest)
  | turn {s : BitVec 64} {i : Instr} {rest : List Instr} : i.isTurn = true → (∀ s', Levelled s' 0 rest) →
    Levelled s 0 (i :: rest)
  | call {s : BitVec 64} {e : Nat} {f : String} {rest : List Instr} : 16 ∣ e → (∀ s', Levelled s' e rest) →
    Levelled s e (.call f :: rest)
  | push {s : BitVec 64} {e : Nat} {o : Operand} {rest : List Instr} : o.isPseudo = false → e + 8 < 2 ^ 63 →
    (∀ s', Levelled s' (e + 8) rest) → Levelled s e (.push o :: rest)
  | lower {s : BitVec 64} {e n : Nat} {src : Operand} {rest : List Instr} : Counts s src n → e + n < 2 ^ 63 →
    (∀ s', Levelled s' (e + n) rest) → Levelled s e (.binary .sub .quad src (.reg .sp) :: rest)
  | raise {s : BitVec 64} {e n : Nat} {src : Operand} {rest : List Instr} : Counts s src n → e + n < 2 ^ 63 →
    (∀ s', Levelled s' e rest) → Levelled s (e + n) (.binary .add .quad src (.reg .sp) :: rest)

namespace Levelled

variable {s : BitVec 64} {e e' : Nat} {i : Instr} {rest a b : List Instr}

theorem lt (h : Levelled s e rest) : e < 2 ^ 63 := by
  induction h with
  | nil | turn => decide
  | quiet _ _ ih | call _ _ ih => exact ih 0
  | load _ ih => exact ih
  | push _ hlt _ _ | lower _ hlt _ _ => omega
  | raise _ hlt _ _ => exact hlt

theorem of_turn (h : Levelled s e (i :: rest)) (hi : i.isTurn = true) : e = 0 ∧ ∀ s', Levelled s' 0 rest := by
  cases h with
  | turn _ hrest => exact ⟨rfl, hrest⟩
  | quiet hq => cases hi.symm.trans (Instr.isTurn_of_quiet hq)
  | load | call | push | lower | raise => cases hi

theorem of_call {f : String} (h : Levelled s e (.call f :: rest)) : 16 ∣ e ∧ ∀ s', Levelled s' e rest := by
  cases h with
  | call hdvd hrest => exact ⟨hdvd, hrest⟩
  | quiet hq => cases hq
  | turn ht => cases ht

theorem of_push {o : Operand} (h : Levelled s e (.push o :: rest)) : o.isPseudo = false ∧ e + 8 < 2 ^ 63 := by
  cases h with
  | push ho hlt _ => exact ⟨ho, hlt⟩
  | quiet hq => cases hq
  | turn ht => cases ht

theorem tail (h : Levelled s e (i :: rest)) : ∃ s' e', Levelled s' e' rest := by
  cases h with
  | load hrest => exact ⟨_, _, hrest⟩
  | quiet _ hrest | turn _ hrest | call _ hrest | push _ _ hrest | lower _ _ hrest | raise _ _ hrest =>
    exact ⟨0, _, hrest 0⟩

/-- Wherever a label stands, the stack is at the frame. -/
theorem at_label {l : String} : ∀ {a : List Instr} {s : BitVec 64} {e : Nat}, Levelled s e (a ++ .label l :: rest) →
    ∀ s', Levelled s' 0 (.label l :: rest)
  | [], _, _, h, _ => .turn rfl (h.of_turn rfl).2
  | _ :: _, _, _, h, s' => by
    obtain ⟨_, _, htail⟩ := h.tail
    exact at_label htail s'

/-- The code tells how much is on the stack. -/
theorem unique (h : Levelled s e rest) : ∀ {e' : Nat}, Levelled s e' rest → e = e' := by
  induction h with
  | nil => intro e' h'; cases h'; rfl
  | quiet hq _ ih =>
    intro e' h'
    cases h' with
    | quiet _ h' => exact ih 0 (h' 0)
    | load h' => exact ih _ h'
    | turn ht => cases ht.symm.trans (Instr.isTurn_of_quiet hq)
    | call | push | lower | raise => cases hq
  | load _ ih =>
    intro e' h'
    cases h' with
    | quiet _ h' => exact ih (h' _)
    | load h' => exact ih h'
    | turn ht => cases ht
  | turn ht _ ih => exact fun h' => (h'.of_turn ht).1.symm
  | call _ _ ih => exact fun h' => ih 0 (h'.of_call.2 0)
  | push _ _ _ ih =>
    intro e' h'
    cases h' with
    | push _ _ h' => exact Nat.add_right_cancel (ih 0 (h' 0))
    | quiet hq => cases hq
    | turn ht => cases ht
  | lower hn hlt _ ih =>
    intro e' h'
    cases h' with
    | lower hn' hlt' h' =>
      obtain rfl := hn.unique hn' (by omega) (by omega)
      exact Nat.add_right_cancel (ih 0 (h' 0))
    | quiet hq => cases hq
    | turn ht => cases ht
  | raise hn hlt _ ih =>
    intro e' h'
    cases h' with
    | raise hn' hlt' h' =>
      obtain rfl := hn.unique hn' (by omega) (by omega)
      rw [ih 0 (h' 0)]
    | quiet hq => cases hq
    | turn ht => cases ht

end Levelled

/-! ## Steps and runs -/

/-- At the point, the stack pointer lies `excess` bytes below a frame of `frame` bytes under `base`, and the code knows
it. -/
structure AtLevel (base : BitVec 64) (frame : Nat) (p : Point) (excess : Nat) : Prop where
  bp : p.2.reg .bp = base
  sp : p.2.reg .sp = base - BitVec.ofNat 64 (frame + excess)
  code : Levelled (p.2.reg .r10) excess p.1

section Runs

variable {world : World} {code : List Instr} {base : BitVec 64} {frame e : Nat} {p p' : Point}

theorem reg_of_step {i : Instr} {flow : Flow} {m m' : State} (h : i.step world m = .ok (flow, m')) :
    ∃ m₁, i.exec world m = some (flow, m₁) ∧ m'.reg = m₁.reg := by
  unfold Instr.step at h
  split at h
  · next flow₁ m₁ hexec =>
    cases h
    exact ⟨m₁, hexec, rfl⟩
  · cases h

theorem exec_of_stuck {i : Instr} {m m' : State} (h : i.step world m = .error m') : i.exec world m = none := by
  unfold Instr.step at h
  split at h
  · cases h
  · next hexec => exact hexec

/-- One step keeps the level known, and only what moves the stack pointer changes it. -/
theorem Follows.atLevel (hlabels : ∀ l target, .label l :: target <:+ code → ∀ s, Levelled s 0 (.label l :: target))
    (h : Follows world code p p') (hp : AtLevel base frame p e) :
    ∃ e', AtLevel base frame p' e' ∧ (e' ≠ e → ∃ i rest, p.1 = i :: rest ∧ i.movesStack = true) := by
  obtain ⟨hbp, hsp, hcode⟩ := hp
  cases h with
  | @next i rest m m' hstep =>
    obtain ⟨m₁, hexec, hreg⟩ := reg_of_step hstep
    simp only at hbp hsp hcode
    generalize hs : m.reg .r10 = s at hcode
    cases hcode with
    | quiet hq hrest =>
      refine ⟨e, ⟨?_, ?_, hrest _⟩, fun hne => absurd rfl hne⟩
      · rw [← hbp, hreg, Instr.reg_of_quiet hq hexec (.inr rfl)]
      · rw [← hsp, hreg, Instr.reg_of_quiet hq hexec (.inl rfl)]
    | @load _ _ v _ hrest =>
      cases hexec.symm.trans (exec_mov (v := v.toBitVec) (by simp [State.read, Width.bits]) rfl)
      refine ⟨e, ⟨?_, ?_, ?_⟩, fun hne => absurd rfl hne⟩
      · simp [hreg, hbp]
      · simp [hreg, hsp]
      · simpa [hreg] using hrest
    | turn ht hrest =>
      have hsame : m₁ = m := by
        cases i with
        | label _ => exact (Prod.mk.inj (Option.some.inj hexec)).2.symm
        | jcc c l =>
          simp only [Instr.exec, Option.bind_eq_bind, Option.bind_eq_some_iff, Option.pure_def, Option.some.injEq,
            Prod.mk.injEq] at hexec
          obtain ⟨_, _, _, hm⟩ := hexec
          exact hm.symm
        | jmp _ | ret => cases hexec
        | _ => cases ht
      subst hsame
      exact ⟨0, ⟨hreg ▸ hbp, hreg ▸ hsp, hrest _⟩, fun hne => absurd rfl hne⟩
    | call _ hrest => cases hexec
    | push ho hlt hrest =>
      obtain ⟨v, hv⟩ := State.exists_read ho world m .quad
      cases hexec.symm.trans (exec_push hv)
      refine ⟨e + 8, ⟨?_, ?_, hrest _⟩, fun _ => ⟨_, _, rfl, rfl⟩⟩
      · rw [hreg, State.reg_pushed (by decide), hbp]
      · rw [hreg, State.sp_pushed, hsp]
        exact base_sub_add ..
    | @lower _ _ n src _ hn hlt hrest =>
      cases hexec.symm.trans (exec_adjust _ (Counts.read (hs ▸ hn) world))
      refine ⟨e + n, ⟨?_, ?_, hrest _⟩, fun _ => ⟨_, _, rfl, rfl⟩⟩
      · simp [hreg, hbp]
      · simp only [hreg, Function.update_self, hsp]
        rw [← Nat.add_assoc]
        exact base_sub_add ..
    | @raise _ e' n src _ hn hlt hrest =>
      cases hexec.symm.trans (exec_adjust _ (Counts.read (hs ▸ hn) world))
      refine ⟨e', ⟨?_, ?_, hrest _⟩, fun _ => ⟨_, _, rfl, rfl⟩⟩
      · simp [hreg, hbp]
      · simp only [hreg, Function.update_self, hsp]
        rw [← Nat.add_assoc, ← base_sub_add]
        exact BitVec.sub_add_cancel _ _
  | @stuck i rest m m' hstep =>
    have hexec := exec_of_stuck hstep
    simp only at hbp hsp hcode
    generalize hs : m.reg .r10 = s at hcode
    cases hcode with
    | quiet _ hrest | turn _ hrest => exact ⟨_, ⟨hbp, hsp, hrest _⟩, fun hne => absurd rfl hne⟩
    | call => cases hexec
    -- What moves the stack pointer always has a result.
    | @load _ _ v _ _ => cases hexec.symm.trans (exec_mov (v := v.toBitVec) (by simp [State.read, Width.bits]) rfl)
    | push ho =>
      obtain ⟨v, hv⟩ := State.exists_read ho world m .quad
      cases hexec.symm.trans (exec_push hv)
    | lower hn | raise hn => cases hexec.symm.trans (exec_adjust _ (Counts.read (hs ▸ hn) world))
  | jump htarget | branch htarget =>
    obtain ⟨rfl, _⟩ := hcode.of_turn rfl
    exact ⟨0, ⟨hbp, hsp, hlabels _ _ htarget _⟩, fun hne => absurd rfl hne⟩
  | pass =>
    obtain ⟨rfl, hrest⟩ := hcode.of_turn rfl
    exact ⟨0, ⟨hbp, hsp, hrest _⟩, fun hne => absurd rfl hne⟩
  | call hsp' hbp' =>
    exact ⟨e, ⟨hbp'.trans hbp, hsp'.trans hsp, hcode.of_call.2 _⟩, fun hne => absurd rfl hne⟩

/-- Every path keeps the level known. -/
theorem atLevel_of_path (hlabels : ∀ l target, .label l :: target <:+ code → ∀ s, Levelled s 0 (.label l :: target))
    (h : Relation.ReflTransGen (Follows world code) p p') (hp : AtLevel base frame p e) :
    ∃ e', AtLevel base frame p' e' := by
  induction h with
  | refl => exact ⟨e, hp⟩
  | tail _ hstep ih =>
    obtain ⟨_, hmid⟩ := ih
    obtain ⟨e', hp', _⟩ := hstep.atLevel hlabels hmid
    exact ⟨e', hp'⟩

end Runs

end Khel.Machine
