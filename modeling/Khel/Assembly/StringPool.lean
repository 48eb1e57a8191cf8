import Khel.Table

/-!
# The pool of texts

Code names a text by its number in the pool. Equal texts share a number, and numbers count up from zero in the order of
first use. A pool is kept in two ways, by text to find numbers and by number to list the texts, and it carries the proof
that both say the same.

* `StringPool.lookup?_intern`: interning a text returns the number it is then found under.
* `StringPool.lookup?_intern_of_some`: no text ever changes its number.
-/

namespace Khel

/-- The texts that code refers to. -/
structure StringPool where
  /-- The number of every text. -/
  ids : Table Nat
  /-- The texts in the order of their numbers. -/
  texts : List String
  agree : ∀ text id, ids.get? text = some id ↔ texts[id]? = some text

namespace StringPool

theorem agree_empty (text : String) (id : Nat) :
    (Table.empty : Table Nat).get? text = some id ↔ ([] : List String)[id]? = some text := by simp

/-- The pool with no texts. -/
def empty : StringPool := ⟨.empty, [], agree_empty⟩

/-- The number of a text, if it has one. -/
def lookup? (pool : StringPool) (text : String) : Option Nat := pool.ids.get? text

theorem lookup?_eq_some_iff {pool : StringPool} {text : String} {id : Nat} :
    pool.lookup? text = some id ↔ pool.texts[id]? = some text := pool.agree text id

theorem lookup?_eq_none_iff {pool : StringPool} {text : String} : pool.lookup? text = none ↔ text ∉ pool.texts := by
  rw [Option.eq_none_iff_forall_ne_some, List.mem_iff_getElem?, not_exists]
  exact forall_congr' fun id => not_congr lookup?_eq_some_iff

/-- A text that is new is listed last, and found there. -/
theorem agree_push {ids : Table Nat} {texts : List String} {text : String}
    (h : ∀ other id, ids.get? other = some id ↔ texts[id]? = some other) (hnew : text ∉ texts) (other : String)
    (id : Nat) : (ids.set text texts.length).get? other = some id ↔ (texts ++ [text])[id]? = some other := by
  rw [Table.get?_set]
  by_cases hlast : id = texts.length
  · subst hlast
    have hother : ids.get? other ≠ some texts.length := by simp [h]
    by_cases ht : text = other <;> simp [ht, hother]
  · have hlisted : (texts ++ [text])[id]? = texts[id]? := by
      rcases Nat.lt_or_gt_of_ne hlast with hlt | hgt
      · exact List.getElem?_append_left hlt
      · rw [List.getElem?_eq_none (Nat.le_of_lt hgt), List.getElem?_eq_none (by simpa using Nat.succ_le_of_lt hgt)]
    rw [hlisted]
    by_cases ht : text = other
    · subst ht
      have hfound : texts[id]? ≠ some text := fun hid => hnew (List.mem_of_getElem? hid)
      simp [hfound, Ne.symm hlast]
    · simp [ht, h]

/-- The pool with one more text, which is new. -/
def push (pool : StringPool) (text : String) (hnew : text ∉ pool.texts) : StringPool where
  ids := pool.ids.set text pool.texts.length
  texts := pool.texts ++ [text]
  agree := agree_push pool.agree hnew

/-- The number of a text, which is the next one if it has none yet, and the pool afterwards. -/
def intern (pool : StringPool) (text : String) : Nat × StringPool :=
  match h : pool.lookup? text with
  | some id => (id, pool)
  | none => (pool.texts.length, pool.push text (lookup?_eq_none_iff.1 h))

/-- How many texts there are. -/
def size (pool : StringPool) : Nat := pool.texts.length

/-- The texts with their numbers. -/
def entries (pool : StringPool) : List (Nat × String) := pool.texts.mapIdx fun id text => (id, text)

/-! ## Numbers -/

/-- Interning a text returns the number it is then found under. -/
theorem lookup?_intern (pool : StringPool) (text : String) :
    (pool.intern text).2.lookup? text = some (pool.intern text).1 := by
  unfold intern
  split
  · assumption
  · simp [lookup?, push]

/-- No text ever changes its number. -/
theorem lookup?_intern_of_some {pool : StringPool} {text : String} {id : Nat} (other : String)
    (h : pool.lookup? text = some id) : (pool.intern other).2.lookup? text = some id := by
  unfold intern
  split
  · exact h
  · rw [lookup?_eq_some_iff] at h ⊢
    exact (List.getElem?_append_left (List.getElem?_eq_some_iff.1 h).1).trans h

end StringPool

end Khel
