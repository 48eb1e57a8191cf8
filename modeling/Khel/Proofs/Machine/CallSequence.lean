import Khel.Proofs.Machine.Legalized
import Khel.Proofs.Machine.Memory
import Khel.Proofs.Machine.Slots

/-!
# Calling a function

A call moves its first six arguments to registers and pushes the others, the last one first, each as eight bytes. The
function saves the frame pointer of its caller, and then looks for its parameters in those registers and above its
frame. The code is followed here wherever its variables are: in cells of their own, or in memory.

* `Machine.State.Spares`: what passing arguments leaves alone.
* `Machine.selectPassing_passes`: the code of a call puts every argument where the function will look for it.
* `Machine.prologue_enters`: behind its prologue, the function finds them there.
* `Machine.selectParams_fetches`: it then fetches each of them, and disturbs none that is still to be fetched.
-/

namespace Khel.Machine

open Ir (Value)

/-! ## What a call may touch -/

/-- Besides registers other than the frame pointer, and flags, only the bytes at distances from `lo` up to `hi` from
`top` may have changed. -/
structure State.Spares (m : State) (top : BitVec 64) (lo hi : Int) (m' : State) : Prop where
  bp : m'.reg .bp = m.reg .bp
  pseudo : m'.pseudo = m.pseudo
  memory : ∀ x, (∀ d, lo ≤ d → d < hi → x ≠ top + BitVec.ofInt 64 d) → m'.memory x = m.memory x

section Spares

variable {m m' m'' : State} {top : BitVec 64} {lo hi lo' hi' d : Int} {w : Width}

theorem State.Spares.of_eq (hbp : m'.reg .bp = m.reg .bp) (hpseudo : m'.pseudo = m.pseudo)
    (hmemory : m'.memory = m.memory) : m.Spares top lo hi m' :=
  ⟨hbp, hpseudo, fun x _ => congrFun hmemory x⟩

theorem State.Spares.trans (h : m.Spares top lo hi m') (h' : m'.Spares top lo hi m'') : m.Spares top lo hi m'' :=
  ⟨h'.bp.trans h.bp, h'.pseudo.trans h.pseudo, fun x hx => (h'.memory x hx).trans (h.memory x hx)⟩

theorem State.Spares.mono (h : m.Spares top lo hi m') (hlo : lo' ≤ lo) (hhi : hi ≤ hi') : m.Spares top lo' hi' m' :=
  ⟨h.bp, h.pseudo, fun x hx => h.memory x fun d hd hd' => hx d (by omega) (by omega)⟩

/-- An address within a stretch is given by its distance. -/
theorem eq_of_toNat_sub (x a : BitVec 64) : x = a + BitVec.ofInt 64 ((x - a).toNat : Int) := by
  rw [BitVec.ofInt_natCast, BitVec.ofNat_toNat, BitVec.setWidth_eq, BitVec.add_comm, BitVec.sub_add_cancel]

theorem sub_eight {a : BitVec 64} (h : a = top + BitVec.ofInt 64 d) : a - 8 = top + BitVec.ofInt 64 (d - 8) := by
  rw [h, Int.sub_eq_add_neg, ← add_ofInt_ofInt]
  exact sub_ofNat _ 8

theorem State.Spares.pushed {v : BitVec 64} (hsp : m.reg .sp = top + BitVec.ofInt 64 d) :
    m.Spares top (d - 8) d (m.pushed v) := by
  refine ⟨State.reg_pushed (by decide) m v, State.pseudo_pushed m v, fun x hx => ?_⟩
  have hbelow := sub_eight hsp
  rw [State.pushed, State.memory_storeBytes _ _ _ _ _ (by omega), if_neg]
  intro hlt
  refine hx (d - 8 + (x - (m.reg .sp - 8)).toNat) (by omega) (by omega) ?_
  rw [← add_ofInt_ofInt, ← hbelow]
  exact eq_of_toNat_sub ..

/-- A word outside of the stretch is read as before. -/
theorem State.Spares.load (h : m.Spares top lo hi m')
    (hd : d + w.bytes ≤ lo ∧ hi ≤ d + 2 ^ 64 ∨ hi ≤ d ∧ d + w.bytes ≤ lo + 2 ^ 64) :
    m'.load (top + BitVec.ofInt 64 d) w = m.load (top + BitVec.ofInt 64 d) w := by
  refine State.load_congr fun x hx => h.memory x fun d' hlo hhi he => ?_
  have hdist := toNat_sub_of_offsets top d' d
  rw [← he] at hdist
  omega

end Spares

/-! ## Sources -/

/-- Variables are given places in memory, or stay, and everything else stays. -/
structure IsPlacing (place : Operand → Operand) : Prop where
  fixes : ∀ o, o.isPseudo = false → place o = o
  var : ∀ x, place (.pseudo x) = .pseudo x ∨ (∃ d, place (.pseudo x) = .stack d) ∨ place (.pseudo x) = .data x

/-- The value is read as the low bytes of its word, whatever becomes of registers and of the `n` bytes below `top`. -/
def Steady (world : World) (T : Khel.SymbolTable) (place : Operand → Operand) (m : State) (top : BitVec 64) (n : Nat)
    (word : Value → BitVec 64) (v : Value) : Prop :=
  ∀ t, v.HasTy T t → ∀ m', m.Spares top (-n) 0 m' →
    m'.read world t.width (place (.ofValue v)) = some ((word v).setWidth t.width.bits)

section Blocks

variable {world : World} {m m' : State} {w : Width} {src dst : Operand} {a : List Instr}

theorem block_append_of_next (h : block world m a = .ok (.next, m')) (b : List Instr) :
    block world m (a ++ b) = block world m' b := by
  induction a generalizing m with
  | nil =>
    cases h
    rfl
  | cons i a ih =>
    rw [block] at h
    rw [List.cons_append, block]
    split at h
    · next m₁ hi => exact ih h
    · next hne => exact absurd h (hne m')

theorem State.flags_of_write {v : Word w} (h : m.write world w v dst = some m') : m'.flags = m.flags := by
  cases dst with
  | reg r =>
    cases h
    rfl
  | pseudo x =>
    simp only [State.write, Option.bind_eq_bind, Option.bind_eq_some_iff] at h
    obtain ⟨_, _, h⟩ := h
    cases h
    rfl
  | stack _ | data _ =>
    cases h
    exact State.flags_storeBytes ..
  | imm _ | str _ => cases h

theorem step_mov {v : Word w} (hr : m.read world w src = some v) (hw : m.write world w v dst = some m') :
    (Instr.mov w src dst).step world m = .ok (.next, m') := by
  rw [step_of_exec (exec_mov hr hw)]
  simp only [Instr.flagsAfter, ← State.flags_of_write hw]

end Blocks

/-! ## The caller -/

theorem Register.ofArgument?_of_lt {index : Nat} (h : index < 6) : ∃ r, Register.ofArgument? index = some r := by
  match index with
  | 0 | 1 | 2 | 3 | 4 | 5 => exact ⟨_, rfl⟩

theorem Register.ofArgument?_inj {i j : Nat} {r : Register} (hi : Register.ofArgument? i = some r)
    (hj : Register.ofArgument? j = some r) : i = j := by
  unfold Register.ofArgument? at hi hj
  split at hi <;> cases hi <;> split at hj <;> cases hj <;> rfl

theorem Register.ne_of_ofArgument? {i : Nat} {r : Register} (hi : Register.ofArgument? i = some r) :
    r ≠ .sp ∧ r ≠ .bp ∧ r ≠ .ax := by
  unfold Register.ofArgument? at hi
  split at hi <;> cases hi <;> decide

theorem Register.lt_of_ofArgument? : ∀ {index : Nat} {r : Register}, Register.ofArgument? index = some r → index < 6
  | 0, _, _ | 1, _, _ | 2, _, _ | 3, _, _ | 4, _, _ | 5, _, _ => by decide
  | _ + 6, _, h => by cases h

/-- A parameter is found in a register that carries arguments, or on the stack. -/
theorem Operand.ofParam_plain (index : Nat) : (Operand.ofParam index).isPseudo = false ∧
    (Operand.ofParam index).isScratch = false ∧ (Operand.ofParam index).isText = false := by
  unfold Operand.ofParam
  split
  · next r hr =>
    unfold Register.ofArgument? at hr
    split at hr <;> cases hr <;> exact ⟨rfl, rfl, rfl⟩
  · exact ⟨rfl, rfl, rfl⟩

section Caller

variable {world : World} {T : Khel.SymbolTable} {place : Operand → Operand} {m : State} {top : BitVec 64} {n : Nat}
  {word : Value → BitVec 64} {v : Value} {t : Ty}

/-- The state has the first arguments from `index` on in their registers. -/
def InRegisters (T : Khel.SymbolTable) (word : Value → BitVec 64) (index : Nat) (vs : List Value) (m : State) : Prop :=
  ∀ j v t r, vs[j]? = some v → v.HasTy T t → Register.ofArgument? (index + j) = some r →
    (m.reg r).setWidth t.width.bits = (word v).setWidth t.width.bits

/-- Moving arguments to registers. -/
theorem selectRegisterArgs_moves (hplace : IsPlacing place) : ∀ (vs : List Value) (index : Nat),
    index + vs.length ≤ 6 → (∀ v ∈ vs, ∃ t, v.HasTy T t) →
    Yields (selectRegisterArgs T index vs) (fun _ => False) fun moves =>
      ∀ m₁, m.Spares top (-n) 0 m₁ → (∀ v ∈ vs, Steady world T place m top n word v) →
        ∃ m₂, block world m₁ (moves.map (Instr.relocate place)) = .ok (.next, m₂) ∧ m.Spares top (-n) 0 m₂ ∧
          m₂.reg .sp = m₁.reg .sp ∧ (∀ j < index, ∀ r, Register.ofArgument? j = some r → m₂.reg r = m₁.reg r) ∧
          InRegisters T word index vs m₂
  | [], index, _, _ => .pure fun m₁ hm₁ _ => ⟨m₁, rfl, hm₁, rfl, fun _ _ _ _ => rfl, by simp [InRegisters]⟩
  | v :: vs, index, hlen, hty => by
    obtain ⟨⟨t, hv⟩, hvs⟩ := List.forall_mem_cons.1 hty
    rw [List.length_cons] at hlen
    obtain ⟨r, hr⟩ := Register.ofArgument?_of_lt (show index < 6 by omega)
    obtain ⟨hsp, hbp, _⟩ := Register.ne_of_ofArgument? hr
    have hparam : Operand.ofParam index = .reg r := by rw [Operand.ofParam, hr]
    unfold selectRegisterArgs
    rw [Width.ofValue_eq hv]
    refine .bind (R := fun w => w = t.width) (.pure rfl) ?_
    rintro _ rfl
    refine .bind (selectRegisterArgs_moves hplace vs (index + 1) (by omega) hvs) fun moves hmoves => .pure ?_
    intro m₁ hm₁ hsteady
    obtain ⟨hfirst, hrest⟩ := List.forall_mem_cons.1 hsteady
    -- The first move fills its register, and the others leave it alone.
    let m₂ := m₁.putReg r t.width ((word v).setWidth t.width.bits)
    have hstep : (Instr.mov t.width (place (.ofValue v)) (place (.ofParam index))).step world m₁ = .ok (.next, m₂) := by
      rw [hparam, hplace.fixes (.reg r) rfl]
      exact step_load (hfirst t hv m₁ hm₁) r
    have hm₂ : m.Spares top (-n) 0 m₂ := hm₁.trans (.of_eq (State.reg_putReg_of_ne (Ne.symm hbp) ..) rfl rfl)
    obtain ⟨m₃, hblock, hm₃, hsp₃, hkeep, hregs⟩ := hmoves m₂ hm₂ hrest
    refine ⟨m₃, ?_, hm₃, ?_, fun j hj r' hr' => ?_, ?_⟩
    · rw [List.map_cons]
      exact (block_next hstep).trans hblock
    · rw [hsp₃, State.reg_putReg_of_ne (Ne.symm hsp)]
    · rw [hkeep j (by omega) r' hr', State.reg_putReg_of_ne]
      rintro rfl
      have := Register.ofArgument?_inj hr hr'
      omega
    · intro j v' t' r' hv' ht' hr'
      cases j with
      | zero =>
        cases hv'
        cases hr.symm.trans hr'
        obtain rfl : t = t' := Option.some.inj (hv.1.symm.trans ht'.1)
        rw [hkeep index (by omega) r hr]
        exact State.reg_putReg ..
      | succ j => exact hregs j v' t' r' hv' ht' (by rwa [Nat.add_assoc, Nat.add_comm 1])

/-- The code pushes eight bytes, the low ones of which are those of `u`. It may use `ax`. -/
def PushesLow (world : World) (w : Width) (u : BitVec 64) (m : State) (code : List Instr) : Prop :=
  ∃ (m₁ : State) (u' : BitVec 64), block world m code = .ok (.next, m₁.pushed u') ∧
    u'.setWidth w.bits = u.setWidth w.bits ∧ (∀ r, r ≠ .ax → m₁.reg r = m.reg r) ∧ m₁.pseudo = m.pseudo ∧
    m₁.memory = m.memory

theorem PushesLow.direct {w : Width} {u u' : BitVec 64} {o : Operand} (h : m.read world .quad o = some u')
    (hlow : u'.setWidth w.bits = u.setWidth w.bits) : PushesLow world w u m [.push o] :=
  ⟨m, u', block_next (step_push h), hlow, fun _ _ => rfl, rfl, rfl⟩

theorem PushesLow.through {w : Width} {u : BitVec 64} {o : Operand} (h : m.read world w o = some (u.setWidth w.bits)) :
    PushesLow world w u m [.mov w o (.reg .ax), .push (.reg .ax)] := by
  have hw : w.bits ≤ 64 := by cases w <;> decide
  refine ⟨m.putReg .ax w (u.setWidth w.bits), (u.setWidth w.bits).setWidth 64, ?_, ?_, fun r hr => ?_, rfl, rfl⟩
  · rw [block_next (step_load h .ax)]
    refine block_next (step_push (congrArg some ?_))
    simp [State.putReg]
  · rw [BitVec.setWidth_setWidth_of_le _ hw, BitVec.setWidth_eq]
  · exact State.reg_putReg_of_ne hr ..

/-- One argument is pushed as eight bytes, and its value is in the low ones. -/
theorem selectPush_pushes (world : World) (hplace : IsPlacing place) (hv : v.HasTy T t) :
    Yields (selectPush T v) (fun _ => False) fun piece => ∀ (m : State) (u : BitVec 64),
      m.read world t.width (place (.ofValue v)) = some (u.setWidth t.width.bits) →
      PushesLow world t.width u m (piece.map (Instr.relocate place)) := by
  have hax : place (.reg .ax) = .reg .ax := hplace.fixes _ rfl
  unfold selectPush
  rw [Width.ofValue_eq hv]
  cases v with
  | int c | long c =>
    -- A constant is pushed as it is, extended by its sign.
    refine .pure fun m u hread => ?_
    simp only [List.map_cons, List.map_nil, Instr.relocate_push, Operand.ofValue, hplace.fixes (.imm _) rfl] at hread ⊢
    refine .direct rfl ?_
    rw [BitVec.setWidth_eq]
    exact Option.some.inj hread
  | str text =>
    refine .pure fun m u hread => ?_
    simp only [List.map_cons, List.map_nil, Instr.relocate_mov, Instr.relocate_push, hax]
    exact .through hread
  | var x =>
    cases hw : t.width with
    | long =>
      refine .pure fun m u hread => ?_
      simp only [List.map_cons, List.map_nil, Instr.relocate_mov, Instr.relocate_push, hax]
      exact .through hread
    | quad =>
      refine .pure fun m u hread => ?_
      exact .direct hread (BitVec.setWidth_setWidth_of_le _ (by decide))

/-- Pushing arguments in the order given, from a stack pointer at a distance of `d` from `top`. Each ends up eight bytes
below the one before. -/
theorem selectPushes_pushes (hplace : IsPlacing place) (hn : n ≤ 2 ^ 64) : ∀ vs : List Value,
    (∀ v ∈ vs, ∃ t, v.HasTy T t) → Yields (selectPushes T vs) (fun _ => False) fun pushes =>
      ∀ (m₁ : State) (d : Int), m.Spares top (-n) 0 m₁ → m₁.reg .sp = top + BitVec.ofInt 64 d → d ≤ 0 →
        8 * vs.length - d ≤ n → (∀ v ∈ vs, Steady world T place m top n word v) →
        ∃ m₂, block world m₁ (pushes.map (Instr.relocate place)) = .ok (.next, m₂) ∧
          m₁.Spares top (d - 8 * vs.length) d m₂ ∧ m₂.reg .sp = top + BitVec.ofInt 64 (d - 8 * vs.length) ∧
          (∀ r, r ≠ .ax → r ≠ .sp → m₂.reg r = m₁.reg r) ∧
          ∀ (j : Nat) v t, vs[j]? = some v → v.HasTy T t →
            m₂.load (top + BitVec.ofInt 64 (d - 8 * (j + 1))) t.width = (word v).setWidth t.width.bits
  | [], _ => .pure fun m₁ d _ hsp _ _ _ =>
    ⟨m₁, rfl, .of_eq rfl rfl rfl, by simpa using hsp, fun _ _ _ => rfl, by simp⟩
  | v :: vs, hty => by
    obtain ⟨⟨t, hv⟩, hvs⟩ := List.forall_mem_cons.1 hty
    refine .bind (selectPush_pushes world hplace hv) fun push hpush => ?_
    refine .bind (selectPushes_pushes hplace hn vs hvs) fun pushes hpushes => .pure ?_
    intro m₁ d hm₁ hsp hd hroom hsteady
    rw [List.length_cons] at hroom ⊢
    obtain ⟨hfirst, hrest⟩ := List.forall_mem_cons.1 hsteady
    obtain ⟨m₂, u, hblock, hlow, hregs, hpseudo, hmemory⟩ := hpush m₁ (word v) (hfirst t hv m₁ hm₁)
    have hsp₂ : m₂.reg .sp = top + BitVec.ofInt 64 d := (hregs .sp (by decide)).trans hsp
    have hm₂ : m₁.Spares top (d - 8) d (m₂.pushed u) :=
      State.Spares.trans (.of_eq (hregs .bp (by decide)) hpseudo hmemory) (.pushed hsp₂)
    have hbelow := sub_eight hsp₂
    obtain ⟨m₃, hblock₃, hm₃, hsp₃, hregs₃, hloads⟩ := hpushes (m₂.pushed u) (d - 8)
      (hm₁.trans (hm₂.mono (by omega) hd)) (by rw [State.sp_pushed, hbelow]) (by omega) (by omega) hrest
    refine ⟨m₃, ?_, ?_, ?_, fun r hax hsp' => ?_, fun j v' t' hj ht' => ?_⟩
    · rw [List.map_append, block_append_of_next hblock, hblock₃]
    · exact (hm₂.mono (by omega) (by omega)).trans (hm₃.mono (by omega) (by omega))
    · rw [hsp₃]
      congr 2
      omega
    · rw [hregs₃ r hax hsp', State.reg_pushed hsp', hregs r hax]
    · cases j with
      | zero =>
        cases hj
        obtain rfl : t = t' := Option.some.inj (hv.1.symm.trans ht'.1)
        have hw : t.width.bytes ≤ 8 := by cases t.width <;> decide
        have hload := hm₃.load (d := d - 8) (w := t.width) (.inr ⟨Int.le_refl _, by omega⟩)
        rw [← hbelow, State.load_pushed, hlow] at hload
        rw [show d - 8 * (((0 : Nat) : Int) + 1) = d - 8 by omega, ← hbelow]
        exact hload
      | succ j =>
        rw [← hloads j v' t' hj ht']
        congr 3
        omega

/-- Changing the stack pointer by some bytes, or not at all. -/
theorem block_adjustStack (world : World) (m : State) (hplace : IsPlacing place) (bytes : Nat) :
    ∃ m', block world m ((adjustStack .sub bytes).map (Instr.relocate place)) = .ok (.next, m') ∧
      m'.reg .sp = m.reg .sp + BitVec.ofInt 64 (-bytes) ∧ (∀ r, r ≠ .sp → m'.reg r = m.reg r) ∧
      m'.pseudo = m.pseudo ∧ m'.memory = m.memory := by
  unfold adjustStack
  split
  · next h =>
    subst h
    exact ⟨m, rfl, by simp, fun _ _ => rfl, rfl, rfl⟩
  · simp only [List.map_cons, List.map_nil, Instr.relocate_binary, hplace.fixes (.imm _) rfl, hplace.fixes (.reg _) rfl]
    have hread : m.read world .quad (.imm (Int64.ofNat bytes)) = some (BitVec.ofNat 64 bytes) := by
      simp [State.read, Width.bits]
    refine ⟨_, block_next (step_of_exec (exec_adjust .sub hread)), ?_, fun r hr => ?_, rfl, rfl⟩
    · simp only [Function.update_self, ← sub_ofNat]
      rfl
    · simp only [Function.update_of_ne hr]

/-- The arguments stand where a function that is called now will look for them. -/
structure State.Passes (m : State) (T : Khel.SymbolTable) (word : Value → BitVec 64) (args : List Value) : Prop where
  regs : InRegisters T word 0 args m
  stack : ∀ (j : Nat) v t, args[j]? = some v → v.HasTy T t → 6 ≤ j →
    m.load (m.reg .sp + BitVec.ofInt 64 (8 * ((j : Int) - 6))) t.width = (word v).setWidth t.width.bits

/-- How many bytes a call with so many arguments takes on the stack. -/
def argumentBytes (args : List Value) : Nat := stackPadding (args.drop 6).length + 8 * (args.drop 6).length

/-- The code of a call up to the call itself. -/
def selectPassing (symbols : Khel.SymbolTable) (args : List Value) : Except Fault (List Instr) := do
  let moves ← selectRegisterArgs symbols 0 (args.take 6)
  let pushes ← selectPushes symbols (args.drop 6).reverse
  return adjustStack .sub (stackPadding (args.drop 6).length) ++ moves ++ pushes

/-- Before the call itself arguments are passed; behind it the stack is restored and the result is fetched. -/
theorem selectCall_eq (T : Khel.SymbolTable) (callee : String) (args : List Value) (dst : Value) :
    selectCall T callee args dst = if (T.get? callee).any Symbol.isFunction then do
        let passing ← selectPassing T args
        let width ← Width.ofValue T dst
        return passing ++ .call callee ::
          (adjustStack .add (8 * (args.drop 6).length + stackPadding (args.drop 6).length) ++
            [.mov width (.reg .ax) (.ofValue dst)])
      else throw (.missingSymbol .instructionSelection callee) := by
  simp [selectCall, selectPassing, callCode]

/-- The instructions of a call up to the call itself put every argument in its place. -/
theorem selectPassing_passes (hplace : IsPlacing place) {args : List Value} {passing : List Instr}
    (hargs : ∀ v ∈ args, ∃ t, v.HasTy T t) (hpassing : selectPassing T args = .ok passing)
    (hlen : argumentBytes args ≤ 2 ^ 64)
    (hsteady : ∀ v ∈ args, Steady world T place m (m.reg .sp) (argumentBytes args) word v) :
    ∃ m', block world m (passing.map (Instr.relocate place)) = .ok (.next, m') ∧
      m.Spares (m.reg .sp) (-argumentBytes args) 0 m' ∧
      m'.reg .sp = m.reg .sp + BitVec.ofInt 64 (-argumentBytes args) ∧ m'.Passes T word args := by
  have hparts : Yields (selectPassing T args) (fun _ => True) fun passing => ∃ moves pushes,
      selectRegisterArgs T 0 (args.take 6) = .ok moves ∧ selectPushes T (args.drop 6).reverse = .ok pushes ∧
      passing = adjustStack .sub (stackPadding (args.drop 6).length) ++ moves ++ pushes :=
    .bind (.of_forall fun _ h => h) fun moves hmoves => .bind (.of_forall fun _ h => h) fun pushes hpushes =>
      .pure ⟨moves, pushes, hmoves, hpushes, rfl⟩
  obtain ⟨moves, pushes, hmoves, hpushes, rfl⟩ := hparts.of_ok hpassing
  have htake : ∀ v ∈ args.take 6, v ∈ args := fun v => List.mem_of_mem_take
  have hdrop : ∀ v ∈ (args.drop 6).reverse, v ∈ args := fun v hv => List.mem_of_mem_drop (List.mem_reverse.1 hv)
  -- Padding, then registers, then the stack.
  obtain ⟨m₁, hblock₁, hsp₁, hregs₁, hpseudo₁, hmemory₁⟩ := block_adjustStack world m hplace
    (stackPadding (args.drop 6).length)
  have hm₁ : m.Spares (m.reg .sp) (-argumentBytes args) 0 m₁ := .of_eq (hregs₁ .bp (by decide)) hpseudo₁ hmemory₁
  obtain ⟨m₂, hblock₂, hm₂, hsp₂, -, hregs₂⟩ := (selectRegisterArgs_moves hplace (args.take 6) 0
    (by rw [List.length_take]; omega) fun v hv => hargs v (htake v hv)).of_ok hmoves m₁ hm₁
    fun v hv => hsteady v (htake v hv)
  have hlength : (args.drop 6).reverse.length = (args.drop 6).length := List.length_reverse
  obtain ⟨m₃, hblock₃, hm₃, hsp₃, hregs₃, hloads⟩ := (selectPushes_pushes hplace hlen (args.drop 6).reverse
    fun v hv => hargs v (hdrop v hv)).of_ok hpushes m₂ (-stackPadding (args.drop 6).length) hm₂ (hsp₂.trans hsp₁)
    (by omega) (by rw [hlength, argumentBytes]; omega) fun v hv => hsteady v (hdrop v hv)
  rw [hlength] at hm₃ hsp₃
  have hbytes : (argumentBytes args : Int) = stackPadding (args.drop 6).length + 8 * (args.drop 6).length := by
    simp [argumentBytes]
  have hsp : m₃.reg .sp = m.reg .sp + BitVec.ofInt 64 (-argumentBytes args) := by
    rw [hsp₃]
    congr 2
    omega
  refine ⟨m₃, ?_, hm₂.trans (hm₃.mono (by omega) (by omega)), hsp, ?_, ?_⟩
  · rw [List.map_append, List.map_append, List.append_assoc, block_append_of_next hblock₁,
      block_append_of_next hblock₂, hblock₃]
  · intro j v t r hv ht hr
    rw [Nat.zero_add] at hr
    obtain ⟨hne, _, hax⟩ := Register.ne_of_ofArgument? hr
    rw [hregs₃ r hax hne]
    refine hregs₂ j v t r ?_ ht (by rwa [Nat.zero_add])
    rw [List.getElem?_take_of_lt (Register.lt_of_ofArgument? hr), hv]
  · intro j v t hv ht hj
    have hlt : j < args.length := (List.getElem?_eq_some_iff.1 hv).1
    have hdropped : (args.drop 6).length = args.length - 6 := List.length_drop
    have hrev : (args.drop 6).reverse[(args.drop 6).length - 1 - (j - 6)]? = some v := by
      rw [List.getElem?_reverse (by omega), List.getElem?_drop, ← hv]
      congr 1
      omega
    rw [← hloads _ v t hrev ht, hsp, add_ofInt_ofInt]
    congr 3
    omega

end Caller

/-! ## The callee -/

/-- What every function does before its own code. -/
def prologue : List Instr := [.push (.reg .bp), .mov .quad (.reg .sp) (.reg .bp)]

/-- What makes room for a frame. -/
abbrev allocation (size : Int64) : Instr := .binary .sub .quad (.imm size) (.reg .sp)

/-- The state in which a function starts: a call has pushed the address behind it, and the function has variables of its
own. -/
def State.entered (m : State) (returnTo : BitVec 64) (cells : String → Cell) : State :=
  { m.pushed returnTo with pseudo := cells }

section Callee

variable {world : World} {T : Khel.SymbolTable} {place : Operand → Operand} {m : State} {word : Value → BitVec 64}

/-- The prologue saves the frame pointer and puts it where the stack pointer is then; the frame lies below. -/
theorem block_prologue (world : World) (m : State) (size : Int64) :
    ∃ m', block world m (prologue ++ [allocation size]) = .ok (.next, m') ∧
      m'.reg .bp = m.reg .sp - 8 ∧ (∀ r, r ≠ .sp → r ≠ .bp → m'.reg r = m.reg r) ∧ m'.pseudo = m.pseudo ∧
      m'.memory = (m.pushed (m.reg .bp)).memory := by
  have hpush := step_push (State.read_reg world m .bp)
  have hsp₁ := State.sp_pushed m (m.reg .bp)
  have hregs₁ : ∀ r, r ≠ .sp → (m.pushed (m.reg .bp)).reg r = m.reg r := fun r hr => State.reg_pushed hr m _
  have hpseudo₁ := State.pseudo_pushed m (m.reg .bp)
  generalize m.pushed (m.reg .bp) = m₁ at hpush hsp₁ hregs₁ hpseudo₁ ⊢
  let m₂ := m₁.putReg .bp .quad (m₁.reg .sp)
  have hmov : (Instr.mov .quad (.reg .sp) (.reg .bp)).step world m₁ = .ok (.next, m₂) :=
    step_load (State.read_reg world m₁ .sp) .bp
  have hsize : m₂.read world .quad (.imm size) = some size.toBitVec := congrArg some (BitVec.setWidth_eq _)
  have hsub := step_of_exec (exec_adjust .sub hsize)
  refine ⟨_, (block_next hpush).trans ((block_next hmov).trans (block_next hsub)), ?_, fun r hsp hbp => ?_, hpseudo₁,
    rfl⟩
  · have hbp₂ : m₂.reg .bp = m₁.reg .sp := (BitVec.setWidth_eq _).symm.trans (State.reg_putReg .bp .quad _)
    simp only [ne_eq, reduceCtorEq, not_false_eq_true, Function.update_of_ne, hbp₂, hsp₁]
  · simp only [Function.update_of_ne hsp]
    exact (State.reg_putReg_of_ne hbp ..).trans (hregs₁ r hsp)

/-- Behind its prologue and the allocation of its frame, a function finds every argument where it looks for it. -/
theorem prologue_enters {args : List Value} (hm : m.Passes T word args) (hlen : argumentBytes args + 16 ≤ 2 ^ 64)
    (returnTo : BitVec 64) (cells : String → Cell) (size : Int64) :
    ∃ m', block world (m.entered returnTo cells) (prologue ++ [allocation size]) =
        .ok (.next, m') ∧ m'.pseudo = cells ∧
      ∀ j v t, args[j]? = some v → v.HasTy T t →
        m'.read world t.width (.ofParam j) = some ((word v).setWidth t.width.bits) := by
  obtain ⟨m', hblock, hbp, hregs, hpseudo, hmemory⟩ := block_prologue world (m.entered returnTo cells) size
  have hregs' : ∀ r, r ≠ .sp → r ≠ .bp → m'.reg r = m.reg r := fun r hsp hbp' =>
    (hregs r hsp hbp').trans (State.reg_pushed hsp m returnTo)
  -- The stack pointer goes down by sixteen bytes, and becomes the frame pointer.
  have hsp₀ : m.reg .sp = m.reg .sp + BitVec.ofInt 64 0 := by simp
  have hsp₁ : (m.entered returnTo cells).reg .sp = m.reg .sp + BitVec.ofInt 64 (0 - 8) :=
    (State.sp_pushed m returnTo).trans (sub_eight hsp₀)
  have hload : ∀ (d : Int) (w : Width), 0 ≤ d → d + w.bytes + 16 ≤ 2 ^ 64 →
      m'.load (m.reg .sp + BitVec.ofInt 64 d) w = m.load (m.reg .sp + BitVec.ofInt 64 d) w := by
    intro d w hd hlt
    have h₁ := (State.Spares.pushed (v := returnTo) hsp₀).load (d := d) (w := w) (.inr ⟨hd, by omega⟩)
    have h₂ := (State.Spares.pushed (v := (m.entered returnTo cells).reg .bp) hsp₁).load (d := d) (w := w)
      (.inr ⟨by omega, by omega⟩)
    have h₃ : m'.load (m.reg .sp + BitVec.ofInt 64 d) w = _ := State.load_congr fun x _ => congrFun hmemory x
    exact h₃.trans (h₂.trans h₁)
  refine ⟨m', hblock, hpseudo, fun j v t hv ht => ?_⟩
  unfold Operand.ofParam
  split
  · next r hr =>
    obtain ⟨hsp, hbp', _⟩ := Register.ne_of_ofArgument? hr
    have hlow := hm.regs j v t r hv ht (by rwa [Nat.zero_add])
    simp only [State.read, hregs' r hsp hbp', hlow]
  · next hj =>
    have hj := Register.le_of_ofArgument? hj
    have hlt : j < args.length := (List.getElem?_eq_some_iff.1 hv).1
    have hbytes : 8 * (args.length - 6) ≤ argumentBytes args := by
      rw [argumentBytes, List.length_drop]
      omega
    have hw : t.width.bytes ≤ 8 := by cases t.width <;> decide
    have hstack := hm.stack j v t hv ht hj
    rw [← hload _ _ (by omega) (by omega)] at hstack
    rw [State.read, ← hstack, hbp, sub_eight hsp₁, add_ofInt_ofInt]
    congr 4
    omega

/-- The place can take a word of the width: it is a variable with a cell of that width, or lies on the stack. -/
def State.Takes (m : State) (w : Width) : Operand → Prop
  | .pseudo x => ∃ c : Word w, m.pseudo x = .of w c
  | .stack _ => True
  | .imm _ | .reg _ | .data _ | .str _ => False

/-- A word written to one place cannot be seen at the other. Places on the stack lie within one turn. -/
inductive Misses : Operand → Width → Operand → Width → Prop where
  | vars {x y : String} {w w' : Width} : x ≠ y → Misses (.pseudo x) w (.pseudo y) w'
  | varReg {x : String} {r : Register} {w w' : Width} : Misses (.pseudo x) w (.reg r) w'
  | varStack {x : String} {d : Int} {w w' : Width} : Misses (.pseudo x) w (.stack d) w'
  | stackReg {d : Int} {r : Register} {w w' : Width} : Misses (.stack d) w (.reg r) w'
  | below {d d' : Int} {w w' : Width} : d + w.bytes ≤ d' → d' + w'.bytes ≤ d + 2 ^ 64 →
    Misses (.stack d) w (.stack d') w'
  | above {d d' : Int} {w w' : Width} : d' + w'.bytes ≤ d → d + w.bytes ≤ d' + 2 ^ 64 →
    Misses (.stack d) w (.stack d') w'

/-- A word that is written to a place is read there, and changes no other place. -/
theorem State.Takes.write {w : Width} {d : Operand} (h : m.Takes w d) (world : World) (v : Word w) :
    ∃ m', m.write world w v d = some m' ∧ m'.read world w d = some v ∧
      ∀ o w', Misses d w o w' → m'.read world w' o = m.read world w' o ∧ (m.Takes w' o → m'.Takes w' o) := by
  cases d with
  | pseudo x =>
    obtain ⟨c, hc⟩ := h
    refine ⟨m.put x w v, by simp [State.write, State.put, hc], State.read_put v, fun o w' hmiss => ?_⟩
    cases hmiss with
    | vars hne =>
      have hcell := Function.update_of_ne (Ne.symm hne) (Cell.of w v) m.pseudo
      simp only [State.read, State.Takes, State.put, hcell]
      exact ⟨trivial, id⟩
    | varReg | varStack => exact ⟨rfl, id⟩
  | stack offset =>
    have hw : w.bytes ≤ 8 := by cases w <;> decide
    refine ⟨_, rfl, ?_, fun o w' hmiss => ?_⟩
    · simp only [State.read, State.reg_storeBytes]
      rw [State.load_storeBytes (Nat.le_refl _) hw, BitVec.setWidth_setWidth_of_le _ (by cases w <;> decide),
        BitVec.setWidth_eq]
    · cases hmiss with
      | stackReg => exact ⟨by simp only [State.read, State.reg_storeBytes], id⟩
      | below h₁ h₂ =>
        simp only [State.read, State.reg_storeBytes]
        exact ⟨congrArg some (State.load_storeBytes_of_apart (by omega) (Apart.of_offsets h₁ h₂).symm), id⟩
      | above h₁ h₂ =>
        simp only [State.read, State.reg_storeBytes]
        exact ⟨congrArg some (State.load_storeBytes_of_apart (by omega) (Apart.of_offsets h₁ h₂)), id⟩
  | imm _ | reg _ | data _ | str _ => exact h.elim

/-- The places of parameters: each can take its parameter, and neither another one nor a parameter that still has to be
fetched can be seen there. -/
structure State.IsReadyFor (m : State) (place : Operand → Operand) (width : String → Width) (count : Nat)
    (xs : List String) : Prop where
  takes : ∀ x ∈ xs, m.Takes (width x) (place (.pseudo x))
  sources : ∀ x ∈ xs, ∀ j < count, ∀ w, Misses (place (.pseudo x)) (width x) (.ofParam j) w
  others : xs.Pairwise fun x y => Misses (place (.pseudo x)) (width x) (place (.pseudo y)) (width y) ∧
    Misses (place (.pseudo y)) (width y) (place (.pseudo x)) (width x)

/-- Every parameter is fetched from where it was found. -/
theorem selectParams_fetches (hplace : IsPlacing place) {width : String → Width} {count : Nat} :
    ∀ (xs : List String) (index : Nat), (∀ x ∈ xs, Width.ofVar T x = .ok (width x)) → index + xs.length ≤ count →
    Yields (selectParams T index xs) (fun _ => False) fun fetch => ∀ (m : State) (words : Nat → BitVec 64),
      m.IsReadyFor place width count xs →
      (∀ j x, xs[j]? = some x →
        m.read world (width x) (.ofParam (index + j)) = some ((words (index + j)).setWidth (width x).bits)) →
      ∃ m', block world m (fetch.map (Instr.relocate place)) = .ok (.next, m') ∧
        (∀ j x, xs[j]? = some x →
          m'.read world (width x) (place (.pseudo x)) = some ((words (index + j)).setWidth (width x).bits)) ∧
        ∀ o w, (∀ x ∈ xs, Misses (place (.pseudo x)) (width x) o w) → m'.read world w o = m.read world w o
  | [], _, _, _ => .pure fun m _ _ _ => ⟨m, rfl, by simp, fun _ _ _ => rfl⟩
  | x :: xs, index, hwidth, hcount => by
    obtain ⟨hx, hxs⟩ := List.forall_mem_cons.1 hwidth
    rw [List.length_cons] at hcount
    unfold selectParams
    rw [hx]
    refine .bind (R := fun w => w = width x) (.pure rfl) ?_
    rintro _ rfl
    have hrest : index + 1 + xs.length ≤ count := by omega
    refine .bind (selectParams_fetches hplace xs (index + 1) hxs hrest) fun fetch hfetch => .pure ?_
    intro m words hready hread
    obtain ⟨htake, htakes⟩ := List.forall_mem_cons.1 hready.takes
    obtain ⟨hsource, hsources⟩ := List.forall_mem_cons.1 hready.sources
    obtain ⟨hother, hothers⟩ := List.pairwise_cons.1 hready.others
    -- Fetching the first one disturbs neither the others nor their places.
    obtain ⟨m₁, hwrite, hself, hmisses⟩ := htake.write world ((words index).setWidth (width x).bits)
    have hstep : ((Instr.mov (width x) (.ofParam index) (.pseudo x)).relocate place).step world m =
        .ok (.next, m₁) := by
      rw [Instr.relocate_mov, hplace.fixes _ (Operand.ofParam_plain index).1]
      exact step_mov (hread 0 x rfl) hwrite
    have hready₁ : m₁.IsReadyFor place width count xs :=
      ⟨fun y hy => (hmisses _ _ (hother y hy).1).2 (htakes y hy), hsources, hothers⟩
    have hread₁ : ∀ j y, xs[j]? = some y →
        m₁.read world (width y) (.ofParam (index + 1 + j)) =
          some ((words (index + 1 + j)).setWidth (width y).bits) := by
      intro j y hj
      have hlt : j < xs.length := (List.getElem?_eq_some_iff.1 hj).1
      have hmiss := hsource (index + 1 + j) (by omega) (width y)
      rw [(hmisses _ _ hmiss).1, Nat.add_assoc, Nat.add_comm 1]
      exact hread (j + 1) y hj
    obtain ⟨m₂, hblock, hdone, hkeeps⟩ := hfetch m₁ words hready₁ hread₁
    refine ⟨m₂, ?_, fun j y hj => ?_, fun o w hmiss => ?_⟩
    · rw [List.map_cons]
      exact (block_next hstep).trans hblock
    · cases j with
      | zero =>
        cases hj
        rw [hkeeps _ _ fun y hy => (hother y hy).2]
        exact hself
      | succ j =>
        rw [← Nat.add_assoc, Nat.add_right_comm]
        exact hdone j y hj
    · obtain ⟨hfirst, hmiss⟩ := List.forall_mem_cons.1 hmiss
      exact (hkeeps o w hmiss).trans (hmisses o w hfirst).1

end Callee

end Khel.Machine
