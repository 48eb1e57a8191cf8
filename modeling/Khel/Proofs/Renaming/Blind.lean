import Khel.Proofs.Naming.Distinct

/-!
# Programs without places, and other names

Compilation should not see where things stand in the source, nor how its automatic variables are called. What it may see
of a program is the program with all places left out and all names replaced.

* `Table.rename`: a table whose names are replaced one to one answers as before.
* `Change.blind`: leaves out places and replaces names.
* `Program.blind_congr`: only the names that a program declares and mentions matter.
-/

namespace Khel

variable {ρ ρ' : String → String}

/-! ## Tables -/

namespace Table

variable {α : Type}

/-- Replaces the names of a table. -/
def rename (ρ : String → String) (t : Table α) : Table α := ⟨t.entries.map fun e => (ρ e.1, e.2)⟩

theorem get?_rename (hρ : Function.Injective ρ) (t : Table α) (x : String) : (t.rename ρ).get? (ρ x) = t.get? x := by
  cases t with | mk es =>
  show findEntry? (ρ x) (es.map fun e => (ρ e.1, e.2)) = findEntry? x es
  induction es with
  | nil => rfl
  | cons e rest ih => simp only [List.map_cons, findEntry?, hρ.eq_iff, ih]

theorem set_rename (hρ : Function.Injective ρ) (t : Table α) (x : String) (a : α) :
    (t.rename ρ).set (ρ x) a = (t.set x a).rename ρ := by
  cases t with | mk es =>
  show mk (setEntry (ρ x) a (es.map fun e => (ρ e.1, e.2))) = mk ((setEntry x a es).map fun e => (ρ e.1, e.2))
  congr 1
  induction es with
  | nil => rfl
  | cons e rest ih =>
    simp only [List.map_cons, setEntry, hρ.eq_iff]
    split
    · rfl
    · rw [List.map_cons, ih]

end Table

/-! ## Expressions -/

/-- Leaves out the place. -/
def Note.blind (note : Note) : Note := { note with span := .nowhere }

mutual
/-- Leaves out the places in an expression and replaces its names. -/
def Expr.blind (ρ : String → String) : Expr → Expr
  | .int note v => .int note.blind v
  | .long note v => .long note.blind v
  | .str note s => .str note.blind s
  | .var note x => .var note.blind (ρ x)
  | .call note f args => .call note.blind (ρ f) (Expr.allBlind ρ args)
  | .unary note op a => .unary note.blind op (a.blind ρ)
  | .binary note op l r => .binary note.blind op (l.blind ρ) (r.blind ρ)
  | .assign note l r => .assign note.blind (l.blind ρ) (r.blind ρ)
  | .cond note c t f => .cond note.blind (c.blind ρ) (t.blind ρ) (f.blind ρ)
  | .range note l r => .range note.blind (l.blind ρ) (r.blind ρ)
  | .cast note t a => .cast note.blind t (a.blind ρ)

/-- Leaves out the places in some expressions and replaces their names. -/
def Expr.allBlind (ρ : String → String) : List Expr → List Expr
  | [] => []
  | e :: es => e.blind ρ :: Expr.allBlind ρ es
end

namespace Expr

theorem length_allBlind (ρ : String → String) (es : List Expr) : (allBlind ρ es).length = es.length := by
  induction es with
  | nil => rfl
  | cons e es ih => rw [allBlind, List.length_cons, List.length_cons, ih]

theorem note_blind (e : Expr) : (e.blind ρ).note = e.note.blind := by
  cases e <;> rfl

@[simp] theorem ty_blind (e : Expr) : (e.blind ρ).ty = e.ty := by
  rw [ty, note_blind]
  rfl

theorem span_blind (e : Expr) : (e.blind ρ).span = .nowhere := by
  rw [span, note_blind]
  rfl

@[simp] theorem isRange_blind (e : Expr) : (e.blind ρ).isRange = e.isRange := by
  cases e <;> rfl

theorem mkCast_blind (target : Ty) (e : Expr) : mkCast target (e.blind ρ) = (mkCast target e).blind ρ := by
  rw [mkCast, span_blind]
  rfl

/-- Constants have no names in them. -/
@[simp] theorem constant?_blind (e : Expr) : (e.blind ρ).constant? = e.constant? := by
  fun_induction Expr.constant? e with
  | case1 | case2 => rfl
  | case3 note a ih | case4 note a ih | case5 note target a ih => rw [Expr.blind, Expr.constant?, ih]
  | case6 e h₁ h₂ h₃ h₄ h₅ =>
    cases e with
    | int | long => simp_all
    | unary note op a => cases op <;> simp_all [Expr.blind, Expr.constant?]
    | cast => simp_all
    | str | var | call | binary | assign | cond | range => rfl

end Expr

mutual
theorem Expr.blind_congr : ∀ e : Expr, (∀ x ∈ e.mentioned, ρ x = ρ' x) → e.blind ρ = e.blind ρ'
  | .int .., _ | .long .., _ | .str .., _ => rfl
  | .var note x, h => by rw [Expr.blind, Expr.blind, h x List.mem_cons_self]
  | .call note f args, h => by
    obtain ⟨hf, hargs⟩ := List.forall_mem_cons.1 h
    rw [Expr.blind, Expr.blind, hf, Expr.allBlind_congr args hargs]
  | .unary note op a, h => by rw [Expr.blind, Expr.blind, a.blind_congr h]
  | .cast note t a, h => by rw [Expr.blind, Expr.blind, a.blind_congr h]
  | .binary note _ l r, h | .assign note l r, h | .range note l r, h => by
    obtain ⟨hl, hr⟩ := List.forall_mem_append.1 h
    rw [Expr.blind, Expr.blind, l.blind_congr hl, r.blind_congr hr]
  | .cond note c t f, h => by
    obtain ⟨hc, h⟩ := List.forall_mem_append.1 h
    obtain ⟨ht, hf⟩ := List.forall_mem_append.1 h
    rw [Expr.blind, Expr.blind, c.blind_congr hc, t.blind_congr ht, f.blind_congr hf]

theorem Expr.allBlind_congr : ∀ es : List Expr, (∀ x ∈ Expr.allMentioned es, ρ x = ρ' x) →
    Expr.allBlind ρ es = Expr.allBlind ρ' es
  | [], _ => rfl
  | e :: es, h => by
    obtain ⟨he, hes⟩ := List.forall_mem_append.1 h
    rw [Expr.allBlind, Expr.allBlind, e.blind_congr he, Expr.allBlind_congr es hes]
end

/-! ## Programs -/

/-- Leaves out places and replaces names. Of an initial value that nothing reads it only stays that there is one. -/
def Change.blind (ρ : String → String) : Change where
  expr := Expr.blind ρ
  idle _ := .int {} 0
  ident ident := ⟨ρ ident.name, .nowhere⟩
  span _ := .nowhere

theorem Expr.map_blind_congr (value : Option Expr) (h : ∀ x ∈ value.toList.flatMap Expr.mentioned, ρ x = ρ' x) :
    value.map (Expr.blind ρ) = value.map (Expr.blind ρ') := by
  cases value with
  | none => rfl
  | some e => exact congrArg some (e.blind_congr (by simpa using h))

theorem VarDecl.blind_congr (d : VarDecl) (hname : ρ d.ident.name = ρ' d.ident.name)
    (h : ∀ x ∈ d.mentioned, ρ x = ρ' x) : d.changeLocal (.blind ρ) = d.changeLocal (.blind ρ') := by
  unfold VarDecl.mentioned at h
  unfold VarDecl.changeLocal
  split at h
  · next hx =>
    rw [if_pos hx, if_pos hx]
    simp only [VarDecl.change, Change.blind, hname]
  · next hx =>
    rw [if_neg hx, if_neg hx]
    simp only [VarDecl.change, Change.blind, hname, Expr.map_blind_congr d.init h]

mutual
theorem Stmt.blind_congr : ∀ s : Stmt, (∀ x ∈ s.mentioned, ρ x = ρ' x) → (∀ e ∈ s.storages, ρ e.1 = ρ' e.1) →
    s.change (.blind ρ) = s.change (.blind ρ')
  | .eval e, h, _ => congrArg Stmt.eval (e.blind_congr h)
  | .ret value span, h, _ => congrArg (Stmt.ret · .nowhere) (Expr.map_blind_congr value h)
  | .ifThen c s, h, hs => by
    obtain ⟨hc, h⟩ := List.forall_mem_append.1 h
    exact congrArg₂ Stmt.ifThen (c.blind_congr hc) (s.blind_congr h hs)
  | .ifElse c s t, h, hs => by
    obtain ⟨hc, h⟩ := List.forall_mem_append.1 h
    obtain ⟨hms, hmt⟩ := List.forall_mem_append.1 h
    obtain ⟨hss, hst⟩ := List.forall_mem_append.1 hs
    have hyes := s.blind_congr hms hss
    have hno := t.blind_congr hmt hst
    have hc : (Change.blind ρ).expr c = (Change.blind ρ').expr c := c.blind_congr hc
    rw [Stmt.change, Stmt.change, hc, hyes, hno]
  | .block items, h, hs => congrArg Stmt.block (blindItems_congr items h hs)
  | .whileLoop c body id, h, hs => by
    obtain ⟨hc, h⟩ := List.forall_mem_append.1 h
    exact congrArg₂ (Stmt.whileLoop · · id) (c.blind_congr hc) (blindItems_congr body h hs)
  | .loop var control body id, h, hs => by
    obtain ⟨hc, h⟩ := List.forall_mem_append.1 h
    obtain ⟨hvar, hs⟩ := List.forall_mem_append.1 hs
    have hvar : var.map (Change.blind ρ).ident = var.map (Change.blind ρ').ident := by
      cases var with
      | none => rfl
      | some ident =>
        have hname : ρ ident.name = ρ' ident.name := by simpa using hvar
        simp only [Option.map_some, Change.blind, hname]
    have hc : (Change.blind ρ).expr control = (Change.blind ρ').expr control := control.blind_congr hc
    rw [Stmt.change, Stmt.change, hvar, hc, blindItems_congr body h hs]
  | .leave .., _, _ | .next .., _, _ | .skip, _, _ => rfl

theorem blindItems_congr : ∀ items : List Item, (∀ x ∈ itemsMentioned items, ρ x = ρ' x) →
    (∀ e ∈ itemsStorages items, ρ e.1 = ρ' e.1) → changeItems (.blind ρ) items = changeItems (.blind ρ') items
  | [], _, _ => rfl
  | .stmt s :: rest, h, hs => by
    obtain ⟨hm, h⟩ := List.forall_mem_append.1 h
    obtain ⟨hss, hs⟩ := List.forall_mem_append.1 hs
    rw [changeItems, changeItems, s.blind_congr hm hss, blindItems_congr rest h hs]
  | .var d :: rest, h, hs => by
    obtain ⟨hm, h⟩ := List.forall_mem_append.1 h
    obtain ⟨hd, hs⟩ := List.forall_mem_cons.1 hs
    rw [changeItems, changeItems, d.blind_congr hd hm, blindItems_congr rest h hs]
  | .fn .. :: rest, h, hs => by rw [changeItems, changeItems, blindItems_congr rest h hs]
end

theorem Decl.blind_congr (d : Decl) (h : ∀ x ∈ d.mentioned, ρ x = ρ' x) (hs : ∀ e ∈ d.storages, ρ e.1 = ρ' e.1) :
    d.change (.blind ρ) = d.change (.blind ρ') := by
  cases d with
  | var d =>
    have hname : ρ d.ident.name = ρ' d.ident.name := by simpa [Decl.storages] using hs
    simp only [Decl.change, VarDecl.change, Change.blind, hname, Expr.map_blind_congr d.init h]
  | fn head body =>
    obtain ⟨hname, hs⟩ := List.forall_mem_cons.1 hs
    obtain ⟨hparams, hs⟩ := List.forall_mem_append.1 hs
    have hparams : head.params.map (Param.change (.blind ρ)) = head.params.map (Param.change (.blind ρ')) := by
      apply List.map_congr_left
      intro p hp
      have hp : ρ p.ident.name = ρ' p.ident.name := hparams _ (List.mem_map_of_mem hp)
      simp only [Param.change, Change.blind, hp]
    have hhead : head.change (.blind ρ) = head.change (.blind ρ') := by
      rw [FnHead.change, FnHead.change, hparams]
      simp only [Change.blind, hname]
    cases body with
    | none => rw [Decl.change, Decl.change, hhead]; rfl
    | some items =>
      rw [Decl.change, Decl.change, hhead]
      exact congrArg (fun items => Decl.fn _ (some items)) (blindItems_congr items h hs)

/-- Only the names that a program declares and mentions matter. -/
theorem Program.blind_congr (p : Program) (h : ∀ x ∈ p.mentioned, ρ x = ρ' x)
    (hs : ∀ e ∈ p.storages, ρ e.1 = ρ' e.1) : p.change (.blind ρ) = p.change (.blind ρ') := by
  apply congrArg Program.mk
  apply List.map_congr_left
  intro d hd
  apply d.blind_congr
  · exact fun x hx => h x (List.mem_flatMap.2 ⟨d, hd, hx⟩)
  · exact fun e he => hs e (List.mem_flatMap.2 ⟨d, hd, he⟩)

end Khel
