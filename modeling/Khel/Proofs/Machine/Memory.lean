import Khel.Proofs.Machine.Control

/-!
# Bytes in memory

A store writes a stretch of bytes and leaves the others alone, so a word is read back where it was written, and what
stands elsewhere is read as before. Places are mostly known by their distance from a common base, and whether two of
them meet is decided on the distances, as long as they lie within one turn of the address space.

* `Machine.State.memory_storeBytes`: every byte after a store.
* `Machine.State.load_storeBytes`: a word that was just written.
* `Machine.State.load_storeBytes_of_apart`: a word that stands elsewhere.
* `Machine.State.pushed`: what a push does.
-/

namespace Khel.Machine

/-! ## Addresses -/

/-- No address belongs to both the `n` bytes from `a` on and the `k` bytes from `b` on. -/
def Apart (a : BitVec 64) (n : Nat) (b : BitVec 64) (k : Nat) : Prop :=
  ∀ x : BitVec 64, (x - a).toNat < n → ¬ (x - b).toNat < k

theorem Apart.symm {a b : BitVec 64} {n k : Nat} (h : Apart a n b k) : Apart b k a n := fun x hb ha => h x ha hb

/-- Distances from a base can be added up. -/
theorem add_ofInt_ofInt (base : BitVec 64) (x y : Int) :
    base + BitVec.ofInt 64 x + BitVec.ofInt 64 y = base + BitVec.ofInt 64 (x + y) := by
  rw [BitVec.add_assoc, BitVec.ofInt_add]

/-- How far an address lies above another one, if both are given by their distances from a base. -/
theorem toNat_sub_of_offsets (base : BitVec 64) (x y : Int) :
    ((base + BitVec.ofInt 64 x - (base + BitVec.ofInt 64 y)).toNat : Int) = (x - y) % 2 ^ 64 := by
  have h : base + BitVec.ofInt 64 x - (base + BitVec.ofInt 64 y) = BitVec.ofInt 64 (x - y) := by
    rw [BitVec.sub_eq_iff_eq_add, BitVec.add_comm (BitVec.ofInt 64 (x - y)), add_ofInt_ofInt]
    congr 2
    omega
  rw [h, BitVec.toNat_ofInt, Int.toNat_of_nonneg (Int.emod_nonneg _ (by decide))]
  rfl

/-- Stretches at distances from a base do not meet if one ends below the other, and the other ends within one turn. -/
theorem Apart.of_offsets {base : BitVec 64} {x y : Int} {n k : Nat} (h : x + n ≤ y) (h' : y + k ≤ x + 2 ^ 64) :
    Apart (base + BitVec.ofInt 64 x) n (base + BitVec.ofInt 64 y) k := by
  intro z hx hy
  have hz : z = base + BitVec.ofInt 64 (z - base).toInt := by
    rw [BitVec.ofInt_toInt, BitVec.add_comm, BitVec.sub_add_cancel]
  rw [hz] at hx hy
  have ex := toNat_sub_of_offsets base (z - base).toInt x
  have ey := toNat_sub_of_offsets base (z - base).toInt y
  omega

/-! ## Stores -/

section Store

variable {world : World} {m : State} {w : Width} {a b v : BitVec 64} {n : Nat}

@[simp] theorem State.reg_storeBytes (m : State) (a v : BitVec 64) : ∀ n, (m.storeBytes a v n).reg = m.reg
  | 0 => rfl
  | n + 1 => State.reg_storeBytes m a v n

@[simp] theorem State.flags_storeBytes (m : State) (a v : BitVec 64) : ∀ n, (m.storeBytes a v n).flags = m.flags
  | 0 => rfl
  | n + 1 => State.flags_storeBytes m a v n

@[simp] theorem State.pseudo_storeBytes (m : State) (a v : BitVec 64) : ∀ n, (m.storeBytes a v n).pseudo = m.pseudo
  | 0 => rfl
  | n + 1 => State.pseudo_storeBytes m a v n

/-- Every byte after a store. -/
theorem State.memory_storeBytes (m : State) (a v x : BitVec 64) : ∀ n, n ≤ 2 ^ 64 →
    (m.storeBytes a v n).memory x =
      if (x - a).toNat < n then v.extractLsb' (8 * (x - a).toNat) 8 else m.memory x
  | 0, _ => rfl
  | n + 1, hn => by
    have ih := State.memory_storeBytes m a v x n (by omega)
    have hlast : x = a + BitVec.ofNat 64 n ↔ (x - a).toNat = n := by
      rw [BitVec.add_comm, ← BitVec.sub_eq_iff_eq_add, ← BitVec.toNat_inj, BitVec.toNat_ofNat, Nat.mod_eq_of_lt hn]
    rw [State.storeBytes]
    by_cases hx : x = a + BitVec.ofNat 64 n
    · have hd := hlast.1 hx
      rw [if_pos (by omega), hd, hx]
      exact Function.update_self ..
    · have hd := mt hlast.2 hx
      simp only [Function.update_of_ne hx, ih]
      by_cases hlt : (x - a).toNat < n
      · rw [if_pos hlt, if_pos (by omega)]
      · rw [if_neg hlt, if_neg (by omega)]

/-- The word with the given bytes, the lowest first. -/
def wordOf (bytes : Nat → BitVec 8) : (w : Width) → Word w
  | .long => bytes 3 ++ bytes 2 ++ bytes 1 ++ bytes 0
  | .quad => bytes 7 ++ bytes 6 ++ bytes 5 ++ bytes 4 ++ bytes 3 ++ bytes 2 ++ bytes 1 ++ bytes 0

theorem State.load_eq (m : State) (a : BitVec 64) (w : Width) :
    m.load a w = wordOf (fun k => m.memory (a + BitVec.ofNat 64 k)) w := by
  have h : a = a + BitVec.ofNat 64 0 := (BitVec.add_zero a).symm
  cases w <;> exact congrArg (_ ++ m.memory ·) h

theorem wordOf_congr {b b' : Nat → BitVec 8} (h : ∀ k < w.bytes, b k = b' k) : wordOf b w = wordOf b' w := by
  cases w <;> simp (disch := decide) only [wordOf, h]

theorem wordOf_extract (v : BitVec 64) (w : Width) :
    wordOf (fun k => v.extractLsb' (8 * k) 8) w = v.setWidth w.bits := by
  cases w <;> simp (disch := rfl) only [wordOf, BitVec.extractLsb'_append_extractLsb'_eq_extractLsb']
  all_goals exact (BitVec.setWidth_eq_extractLsb' (by decide)).symm

theorem toNat_add_ofNat_sub (a : BitVec 64) {k : Nat} (hk : k < 2 ^ 64) : (a + BitVec.ofNat 64 k - a).toNat = k := by
  rw [BitVec.add_comm, BitVec.add_sub_cancel, BitVec.toNat_ofNat, Nat.mod_eq_of_lt hk]

/-- A word depends only on its own bytes. -/
theorem State.load_congr {m m' : State} (h : ∀ x : BitVec 64, (x - a).toNat < w.bytes → m'.memory x = m.memory x) :
    m'.load a w = m.load a w := by
  have hw : w.bytes ≤ 8 := by cases w <;> decide
  rw [State.load_eq, State.load_eq]
  refine wordOf_congr fun k hk => h _ ?_
  rwa [toNat_add_ofNat_sub a (by omega)]

/-- A word that stands elsewhere is read as before. -/
theorem State.load_storeBytes_of_apart (hn : n ≤ 2 ^ 64) (h : Apart b w.bytes a n) :
    (m.storeBytes a v n).load b w = m.load b w := by
  refine State.load_congr fun x hx => ?_
  rw [State.memory_storeBytes m a v x n hn, if_neg (h x hx)]

/-- A word that was just written is read back. -/
theorem State.load_storeBytes (hw : w.bytes ≤ n) (hn : n ≤ 8) :
    (m.storeBytes a v n).load a w = v.setWidth w.bits := by
  rw [State.load_eq, ← wordOf_extract]
  refine wordOf_congr fun k hk => ?_
  rw [State.memory_storeBytes m a v _ n (by omega), toNat_add_ofNat_sub a (by omega), if_pos (by omega)]

end Store

/-! ## The stack -/

/-- A stack pointer that goes down by some bytes. -/
theorem base_sub_add (base : BitVec 64) (a b : Nat) :
    base - BitVec.ofNat 64 a - BitVec.ofNat 64 b = base - BitVec.ofNat 64 (a + b) := by
  rw [BitVec.sub_sub, BitVec.ofNat_add]

/-- A distance downwards. -/
theorem sub_ofNat (base : BitVec 64) (n : Nat) : base - BitVec.ofNat 64 n = base + BitVec.ofInt 64 (-n) := by
  rw [BitVec.sub_eq_iff_eq_add, ← BitVec.ofInt_natCast, add_ofInt_ofInt, Int.add_left_neg]
  simp

/-- The state after eight bytes were pushed. -/
def State.pushed (m : State) (v : BitVec 64) : State :=
  ({ m with reg := Function.update m.reg .sp (m.reg .sp - 8) } : State).storeBytes (m.reg .sp - 8) v 8

section Stack

variable {world : World} {m : State} {o : Operand}

@[simp] theorem State.sp_pushed (m : State) (v : BitVec 64) : (m.pushed v).reg .sp = m.reg .sp - 8 := by
  simp [State.pushed]

theorem State.reg_pushed {r : Register} (h : r ≠ .sp) (m : State) (v : BitVec 64) : (m.pushed v).reg r = m.reg r := by
  simp [State.pushed, h]

@[simp] theorem State.flags_pushed (m : State) (v : BitVec 64) : (m.pushed v).flags = m.flags := by
  simp [State.pushed]

@[simp] theorem State.pseudo_pushed (m : State) (v : BitVec 64) : (m.pushed v).pseudo = m.pseudo := by
  simp [State.pushed]

theorem State.load_pushed (m : State) (v : BitVec 64) (w : Width) :
    (m.pushed v).load (m.reg .sp - 8) w = v.setWidth w.bits :=
  State.load_storeBytes (by cases w <;> decide) (Nat.le_refl 8)

theorem State.load_pushed_of_apart {v a : BitVec 64} {w : Width} (h : Apart a w.bytes (m.reg .sp - 8) 8) :
    (m.pushed v).load a w = m.load a w :=
  State.load_storeBytes_of_apart (m := { m with reg := Function.update m.reg .sp (m.reg .sp - 8) }) (by omega) h

/-- A register is read whole. -/
theorem State.read_reg (world : World) (m : State) (r : Register) : m.read world .quad (.reg r) = some (m.reg r) :=
  congrArg some (BitVec.setWidth_eq _)

theorem exec_push {v : Word .quad} (h : m.read world .quad o = some v) :
    (Instr.push o).exec world m = some (.next, m.pushed v) := by
  simp [Instr.exec, h, State.pushed]

theorem step_push {v : Word .quad} (h : m.read world .quad o = some v) :
    (Instr.push o).step world m = .ok (.next, m.pushed v) := by
  simp only [Instr.step, exec_push h, Instr.flagsAfter, ← State.flags_pushed m v]

/-- Arithmetic on the stack pointer. -/
theorem exec_adjust (op : BinOp) {src : Operand} {v : Word .quad} (h : m.read world .quad src = some v) :
    (Instr.binary op .quad src (.reg .sp)).exec world m = some (.next,
      { m with reg := Function.update m.reg .sp (op.apply (m.reg .sp) v), flags := none }) := by
  rw [exec_binary (State.read_reg world m .sp) h rfl]
  simp only [BitVec.setWidth_eq]

end Stack

end Khel.Machine
