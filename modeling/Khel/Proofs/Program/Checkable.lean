import Khel.Proofs.Program.Names
import Khel.Typing.Conversion

/-!
# What checking relies on

A program can be checked once its names are resolved. Checking relies on little: each variable is known where it is
used, what is assigned to is a variable, nobody wrote a cast, and a linked name has no point in it.

`known` holds of the names declared so far. It never loses a name, also when the block of a declaration is left, since
a unique name means nothing else anywhere.

* `Stmt.checkable_mono`: knowing more does no harm.
* `Expr.checkable_of_constant`: a constant needs no names at all.
-/

namespace Khel

/-- The names known after some more declarations. -/
def withNames (known : String → Prop) (xs : List String) : String → Prop := fun y => known y ∨ y ∈ xs

mutual
/-- The variables of the expression are known, it assigns to variables only, and it has no cast. -/
def Expr.Checkable (known : String → Prop) : Expr → Prop
  | .int .. | .long .. | .str .. => True
  | .var _ x => known x
  | .call _ _ args => Expr.AllCheckable known args
  | .unary _ _ a => a.Checkable known
  | .binary _ _ l r => l.Checkable known ∧ r.Checkable known
  | .assign _ l r => l.isVar = true ∧ l.Checkable known ∧ r.Checkable known
  | .cond _ c t f => c.Checkable known ∧ t.Checkable known ∧ f.Checkable known
  | .range _ l r => l.Checkable known ∧ r.Checkable known
  | .cast .. => False

/-- All expressions of a list are checkable. -/
def Expr.AllCheckable (known : String → Prop) : List Expr → Prop
  | [] => True
  | e :: es => e.Checkable known ∧ Expr.AllCheckable known es
end

/-- The declaration of a variable in a block is checkable. An external one has no initial value to look at. -/
def VarDecl.Checkable (known : String → Prop) (d : VarDecl) : Prop :=
  if d.isExternal then Dotless d.ident.name else ∀ e ∈ d.init, e.Checkable (withNames known [d.ident.name])

mutual
/-- The statement is checkable where the names `known` are declared. -/
def Stmt.Checkable (known : String → Prop) : Stmt → Prop
  | .eval e => e.Checkable known
  | .ret value _ => ∀ e ∈ value, e.Checkable known
  | .ifThen c s => c.Checkable known ∧ s.Checkable known
  | .ifElse c s t => c.Checkable known ∧ s.Checkable known ∧ t.Checkable known
  | .block items => itemsCheckable known items
  | .whileLoop c body _ => c.Checkable known ∧ itemsCheckable known body
  | .loop var control body _ =>
    control.Checkable known ∧ itemsCheckable (withNames known (var.toList.map Ident.name)) body
  | .leave .. | .next .. | .skip => True

/-- The items of a block are checkable; each knows what was declared before it. -/
def itemsCheckable (known : String → Prop) : List Item → Prop
  | [] => True
  | .stmt s :: rest => s.Checkable known ∧ itemsCheckable known rest
  | .var d :: rest => d.Checkable known ∧ itemsCheckable (withNames known [d.ident.name]) rest
  | .fn .. :: _ => False
end

/-- The linked name that a declaration of the top level declares. -/
def Decl.name : Decl → String
  | .fn head _ => head.ident.name
  | .var d => d.ident.name

/-- A declaration of the top level is checkable. -/
def Decl.Checkable (known : String → Prop) : Decl → Prop
  | .fn head body => Dotless head.ident.name ∧
    ∀ items ∈ body, itemsCheckable (withNames known (head.ident.name :: paramNames head.params)) items
  | .var d => Dotless d.ident.name ∧ ∀ e ∈ d.init, e.Checkable (withNames known [d.ident.name])

/-- The declarations of the top level are checkable; each knows what was declared before it. -/
def declsCheckable (known : String → Prop) : List Decl → Prop
  | [] => True
  | d :: ds => d.Checkable known ∧ declsCheckable (withNames known [d.name]) ds

/-! ## Knowing more -/

section Mono

variable {known known' : String → Prop}

theorem withNames_mono (h : ∀ x, known x → known' x) (xs : List String) :
    ∀ x, withNames known xs x → withNames known' xs x := by
  rintro x (hx | hx)
  · exact .inl (h x hx)
  · exact .inr hx

mutual
theorem Expr.checkable_mono (h : ∀ x, known x → known' x) : ∀ e : Expr, e.Checkable known → e.Checkable known'
  | .int .., _ | .long .., _ | .str .., _ => trivial
  | .var _ x, he => h x he
  | .call _ _ args, he => Expr.allCheckable_mono h args he
  | .unary _ _ a, he => a.checkable_mono h he
  | .binary _ _ l r, ⟨hl, hr⟩ => ⟨l.checkable_mono h hl, r.checkable_mono h hr⟩
  | .assign _ l r, ⟨hv, hl, hr⟩ => ⟨hv, l.checkable_mono h hl, r.checkable_mono h hr⟩
  | .cond _ c t f, ⟨hc, ht, hf⟩ => ⟨c.checkable_mono h hc, t.checkable_mono h ht, f.checkable_mono h hf⟩
  | .range _ l r, ⟨hl, hr⟩ => ⟨l.checkable_mono h hl, r.checkable_mono h hr⟩

theorem Expr.allCheckable_mono (h : ∀ x, known x → known' x) : ∀ es : List Expr, Expr.AllCheckable known es →
    Expr.AllCheckable known' es
  | [], _ => trivial
  | e :: es, ⟨he, hes⟩ => ⟨e.checkable_mono h he, Expr.allCheckable_mono h es hes⟩
end

theorem VarDecl.checkable_mono (h : ∀ x, known x → known' x) (d : VarDecl) (hd : d.Checkable known) :
    d.Checkable known' := by
  unfold VarDecl.Checkable at hd ⊢
  split
  · next hx => rwa [if_pos hx] at hd
  · next hx =>
    rw [if_neg hx] at hd
    exact fun e he => e.checkable_mono (withNames_mono h _) (hd e he)

mutual
/-- Knowing more does no harm. -/
theorem Stmt.checkable_mono {known known' : String → Prop} (h : ∀ x, known x → known' x) : ∀ s : Stmt,
    s.Checkable known → s.Checkable known'
  | .eval e, hs => e.checkable_mono h hs
  | .ret .., hs => fun e he => e.checkable_mono h (hs e he)
  | .ifThen c s, ⟨hc, hs⟩ => ⟨c.checkable_mono h hc, s.checkable_mono h hs⟩
  | .ifElse c s t, ⟨hc, hs, ht⟩ => ⟨c.checkable_mono h hc, s.checkable_mono h hs, t.checkable_mono h ht⟩
  | .block items, hs => itemsCheckable_mono h items hs
  | .whileLoop c body _, ⟨hc, hb⟩ => ⟨c.checkable_mono h hc, itemsCheckable_mono h body hb⟩
  | .loop _ control body _, ⟨hc, hb⟩ =>
    ⟨control.checkable_mono h hc, itemsCheckable_mono (withNames_mono h _) body hb⟩
  | .leave .., _ | .next .., _ | .skip, _ => trivial

theorem itemsCheckable_mono {known known' : String → Prop} (h : ∀ x, known x → known' x) : ∀ items : List Item,
    itemsCheckable known items → itemsCheckable known' items
  | [], _ => trivial
  | .stmt s :: rest, ⟨hs, hr⟩ => ⟨s.checkable_mono h hs, itemsCheckable_mono h rest hr⟩
  | .var d :: rest, ⟨hd, hr⟩ => ⟨d.checkable_mono h hd, itemsCheckable_mono (withNames_mono h _) rest hr⟩
end

theorem Decl.checkable_mono (h : ∀ x, known x → known' x) : ∀ d : Decl, d.Checkable known → d.Checkable known'
  | .fn .., ⟨hn, hb⟩ => ⟨hn, fun items hi => itemsCheckable_mono (withNames_mono h _) items (hb items hi)⟩
  | .var _, ⟨hn, hi⟩ => ⟨hn, fun e he => e.checkable_mono (withNames_mono h _) (hi e he)⟩

theorem declsCheckable_mono {known known' : String → Prop} (h : ∀ x, known x → known' x) : ∀ ds : List Decl,
    declsCheckable known ds → declsCheckable known' ds
  | [], _ => trivial
  | d :: ds, ⟨hd, hds⟩ => ⟨d.checkable_mono h hd, declsCheckable_mono (withNames_mono h _) ds hds⟩

end Mono

/-- A constant needs no names at all. -/
theorem Expr.checkable_of_constant {known : String → Prop} (known' : String → Prop) : ∀ (e : Expr) {v : Int64},
    e.Checkable known → e.constant? = some v → e.Checkable known'
  | .int .., _, _, _ | .long .., _, _, _ => trivial
  | .unary _ .negate a, _, he, hv | .unary _ .complement a, _, he, hv => by
    obtain ⟨v, hv, _⟩ := Option.map_eq_some_iff.1 hv
    exact a.checkable_of_constant known' he hv

end Khel
