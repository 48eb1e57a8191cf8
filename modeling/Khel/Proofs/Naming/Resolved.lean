import Khel.Naming.Resolve
import Khel.Proofs.Ensures
import Khel.Proofs.Program.Checkable

/-!
# Resolved programs

Resolution hands a program to checking. It numbers the variables of their own in the order of the text, so no two of
them share a name, and it leaves linked names as they are.

* `resolveItems_ensures`, `Program.resolve_yields`: the variables of their own are numbered from zero, and a program
  without casts and without points in its names becomes checkable.
-/

namespace Khel

/-- Some visible name denotes this one. -/
def Scope.Knows (scope : Scope) (y : String) : Prop := ∃ x b, scope.get? x = some b ∧ b.uniqueName = y

namespace Scope

theorem knows_enter {scope : Scope} {y : String} : scope.enter.Knows y ↔ scope.Knows y := by
  simp [Knows, enter, Table.get?_map]

theorem Knows.of_set {scope : Scope} {x y : String} {b : Binding} (h : Knows (Table.set scope x b) y) :
    withNames scope.Knows [b.uniqueName] y := by
  obtain ⟨x', b', hb, rfl⟩ := h
  rw [Table.get?_set] at hb
  split at hb
  · cases hb
    exact .inr (by simp)
  · exact .inl ⟨x', b', hb, rfl⟩

/-- A declared variable takes the next number. -/
theorem declare_ensures (scope : Scope) (ident : Ident) (n : Nat) :
    Ensures (scope.declare ident) n (fun _ => True) fun r n' => Renames n n' [ident.name] [r.1.name] ∧
      ∀ y, r.2.Knows y → withNames scope.Knows [r.1.name] y := by
  unfold declare
  split
  · exact .throw trivial
  · refine .bind (Fresh.name_ensures ident.name n) ?_
    rintro _ _ ⟨rfl, rfl⟩
    exact .pure ⟨.single _ n, fun y hy => hy.of_set⟩

theorem declare?_ensures (scope : Scope) (var : Option Ident) (n : Nat) :
    Ensures (scope.declare? var) n (fun _ => True) fun r n' =>
      Renames n n' (var.toList.map Ident.name) (r.1.toList.map Ident.name) ∧
      ∀ y, r.2.Knows y → withNames scope.Knows (r.1.toList.map Ident.name) y := by
  cases var with
  | none => exact .pure ⟨.nil n, fun y hy => .inl hy⟩
  | some ident =>
    refine .bind (declare_ensures scope ident n) ?_
    rintro ⟨ident', scope'⟩ n' ⟨hname, hknows⟩
    exact .pure ⟨hname, hknows⟩

theorem declareParams_ensures : ∀ (scope : Scope) (params : List Param) (n : Nat),
    Ensures (scope.declareParams params) n (fun _ => True) fun r n' =>
      Renames n n' (paramNames params) (paramNames r.1) ∧
      ∀ y, r.2.Knows y → withNames scope.Knows (paramNames r.1) y
  | scope, [], n => .pure ⟨.nil n, fun y hy => .inl hy⟩
  | scope, p :: ps, n => by
    refine .bind (declare_ensures scope p.ident n) ?_
    rintro ⟨ident, scope'⟩ n' ⟨hname, hknows⟩
    refine .bind (declareParams_ensures scope' ps n') ?_
    rintro ⟨ps', scope''⟩ n'' ⟨hnames, hknows'⟩
    refine .pure ⟨hname.append hnames, fun y hy => ?_⟩
    rcases hknows' y hy with hy' | hy'
    · rcases hknows y hy' with h | h
      · exact .inl h
      · exact .inr (by simp_all [paramNames])
    · exact .inr (List.mem_cons_of_mem _ hy')

end Scope

/-! ## Expressions -/

mutual
/-- The variables of a resolved expression are visible ones. -/
theorem Expr.resolve_yields (scope : Scope) : ∀ e : Expr,
    Yields (e.resolve scope) (fun _ => True) fun e' => e.hasCast = false → e'.Checkable scope.Knows
  | .int .. | .long .. | .str .. => by
    rw [Expr.resolve]
    exact .pure fun _ => trivial
  | .var note x => by
    rw [Expr.resolve]
    split
    · next b hb => exact .pure fun _ => ⟨x, b, hb, rfl⟩
    · exact .throw trivial
  | .call note f args => by
    rw [Expr.resolve]
    split
    · exact .bind (Expr.resolveAll_yields scope args) fun _ h => .pure h
    · exact .throw trivial
  | .unary note op a => by
    rw [Expr.resolve]
    exact .bind (a.resolve_yields scope) fun _ h => .pure h
  | .binary note op l r => by
    rw [Expr.resolve]
    refine .bind (l.resolve_yields scope) fun _ hl => .bind (r.resolve_yields scope) fun _ hr => .pure fun hc => ?_
    simp only [Expr.hasCast, Bool.or_eq_false_iff] at hc
    exact ⟨hl hc.1, hr hc.2⟩
  | .assign note l r => by
    rw [Expr.resolve]
    split
    · next hv =>
      have hl : Yields (l.resolve scope) (fun _ => True) fun l' =>
          l'.isVar = true ∧ (l.hasCast = false → l'.Checkable scope.Knows) := by
        refine Yields.and ?_ (l.resolve_yields scope)
        cases l <;> simp only [Expr.isVar, Bool.false_eq_true] at hv
        rw [Expr.resolve]
        split
        · exact .pure rfl
        · exact .throw trivial
      refine .bind hl fun _ hl => .bind (r.resolve_yields scope) fun _ hr => .pure fun hc => ?_
      simp only [Expr.hasCast, Bool.or_eq_false_iff] at hc
      exact ⟨hl.1, hl.2 hc.1, hr hc.2⟩
    · exact .throw trivial
  | .cond note c t f => by
    rw [Expr.resolve]
    refine .bind (c.resolve_yields scope) fun _ hc => .bind (t.resolve_yields scope) fun _ ht =>
      .bind (f.resolve_yields scope) fun _ hf => .pure fun h => ?_
    simp only [Expr.hasCast, Bool.or_eq_false_iff] at h
    exact ⟨hc h.1.1, ht h.1.2, hf h.2⟩
  | .range note l r => by
    rw [Expr.resolve]
    refine .bind (l.resolve_yields scope) fun _ hl => .bind (r.resolve_yields scope) fun _ hr => .pure fun hc => ?_
    simp only [Expr.hasCast, Bool.or_eq_false_iff] at hc
    exact ⟨hl hc.1, hr hc.2⟩
  | .cast note t a => by
    rw [Expr.resolve]
    exact .bind (a.resolve_yields scope) fun _ _ => .pure fun hc => by simp [Expr.hasCast] at hc

theorem Expr.resolveAll_yields (scope : Scope) : ∀ es : List Expr,
    Yields (Expr.resolveAll scope es) (fun _ => True) fun es' =>
      Expr.haveCast es = false → Expr.AllCheckable scope.Knows es'
  | [] => by
    rw [Expr.resolveAll]
    exact .pure fun _ => trivial
  | e :: es => by
    rw [Expr.resolveAll]
    refine .bind (e.resolve_yields scope) fun _ he => .bind (Expr.resolveAll_yields scope es) fun _ hes =>
      .pure fun hc => ?_
    simp only [Expr.haveCast, Bool.or_eq_false_iff] at hc
    exact ⟨he hc.1, hes hc.2⟩
end

theorem Expr.resolve?_yields (scope : Scope) (value : Option Expr) :
    Yields (Expr.resolve? scope value) (fun _ => True) fun value' =>
      value.any Expr.hasCast = false → ∀ e ∈ value', e.Checkable scope.Knows := by
  cases value with
  | none => exact .pure fun _ => by simp
  | some e => exact .bind (e.resolve_yields scope) fun _ he => .pure fun hc => by simpa using he (by simpa using hc)

/-! ## Statements -/

/-- A resolved variable of a block, and the scope behind it. -/
theorem VarDecl.resolve_ensures (scope : Scope) (d : VarDecl) (n : Nat) :
    Ensures (d.resolve scope) n (fun _ => True) fun r n' => Renames n n' d.ownNames r.1.ownNames ∧
      (∀ y, r.2.Knows y → withNames scope.Knows [r.1.ident.name] y) ∧
      (d.hasCast = false → (∀ x ∈ d.linkedNames, Dotless x) → r.1.Checkable scope.Knows) := by
  unfold VarDecl.resolve
  split
  · next hx =>
    split
    · exact .throw trivial
    · refine .pure ⟨by simpa [ownNames, hx] using .nil n, fun y hy => hy.of_set, fun _ hd => ?_⟩
      rw [VarDecl.Checkable, if_pos hx]
      exact hd _ (by simp [linkedNames, hx])
  · next hx =>
    refine .bind (Scope.declare_ensures scope d.ident n) ?_
    rintro ⟨ident, scope'⟩ n' ⟨hname, hknows⟩
    refine .lift_bind (Expr.resolve?_yields scope' d.init) fun init hinit => ?_
    have hx' : ¬ VarDecl.isExternal { d with ident, init } := hx
    refine .pure ⟨by simpa only [ownNames, if_neg hx, if_neg hx'] using hname, hknows, fun hc _ => ?_⟩
    rw [VarDecl.Checkable, if_neg hx']
    exact fun e he => e.checkable_mono hknows (hinit hc e he)

mutual
/-- The variables of a resolved statement are numbered in order, and what it mentions is visible. -/
theorem Stmt.resolve_ensures : ∀ (scope : Scope) (s : Stmt) (n : Nat),
    Ensures (s.resolve scope) n (fun _ => True) fun s' n' => Renames n n' s.ownNames s'.ownNames ∧
      (s.hasCast = false → (∀ x ∈ s.linkedNames, Dotless x) → s'.Checkable scope.Knows)
  | scope, .eval e, n => by
    rw [Stmt.resolve]
    exact .lift_bind (e.resolve_yields scope) fun _ he => .pure ⟨.nil n, fun hc _ => he hc⟩
  | scope, .ret value span, n => by
    rw [Stmt.resolve]
    exact .lift_bind (Expr.resolve?_yields scope value) fun _ hv => .pure ⟨.nil n, fun hc _ => hv hc⟩
  | scope, .ifThen c s, n => by
    rw [Stmt.resolve]
    refine .lift_bind (c.resolve_yields scope) fun _ hc => .bind (s.resolve_ensures scope _) ?_
    rintro s' n' ⟨hn, hs⟩
    refine .pure ⟨hn, fun hcast hdots => ?_⟩
    simp only [Stmt.hasCast, Bool.or_eq_false_iff] at hcast
    exact ⟨hc hcast.1, hs hcast.2 hdots⟩
  | scope, .ifElse c s t, n => by
    rw [Stmt.resolve]
    refine .lift_bind (c.resolve_yields scope) fun _ hc => .bind (s.resolve_ensures scope _) ?_
    rintro s' n' ⟨hn, hs⟩
    refine .bind (t.resolve_ensures scope n') ?_
    rintro t' n'' ⟨hn', ht⟩
    refine .pure ⟨hn.append hn', fun hcast hdots => ?_⟩
    simp only [Stmt.hasCast, Bool.or_eq_false_iff] at hcast
    simp only [Stmt.linkedNames, List.forall_mem_append] at hdots
    exact ⟨hc hcast.1.1, hs hcast.1.2 hdots.1, ht hcast.2 hdots.2⟩
  | scope, .block items, n => by
    rw [Stmt.resolve]
    refine .bind (resolveItems_ensures scope.enter items n) ?_
    rintro items' n' ⟨hn, hi⟩
    refine .pure ⟨hn, fun hcast hdots => ?_⟩
    exact itemsCheckable_mono (fun _ => Scope.knows_enter.1) items' (hi hcast hdots)
  | scope, .whileLoop c body id, n => by
    rw [Stmt.resolve]
    refine .lift_bind (c.resolve_yields scope) fun _ hc => .bind (resolveItems_ensures scope.enter body _) ?_
    rintro body' n' ⟨hn, hb⟩
    refine .pure ⟨hn, fun hcast hdots => ?_⟩
    simp only [Stmt.hasCast, Bool.or_eq_false_iff] at hcast
    exact ⟨hc hcast.1, itemsCheckable_mono (fun _ => Scope.knows_enter.1) body' (hb hcast.2 hdots)⟩
  | scope, .loop var control body id, n => by
    rw [Stmt.resolve]
    refine .lift_bind (control.resolve_yields scope) fun _ hc => .bind (Scope.declare?_ensures scope.enter var n) ?_
    rintro ⟨var', inner⟩ n' ⟨hvar, hknows⟩
    refine .bind (resolveItems_ensures inner body n') ?_
    rintro body' n'' ⟨hn, hb⟩
    refine .pure ⟨hvar.append hn, fun hcast hdots => ?_⟩
    simp only [Stmt.hasCast, Bool.or_eq_false_iff] at hcast
    refine ⟨hc hcast.1, itemsCheckable_mono (fun y hy => ?_) body' (hb hcast.2 hdots)⟩
    exact withNames_mono (fun _ => Scope.knows_enter.1) _ y (hknows y hy)
  | _, .leave .., n | _, .next .., n | _, .skip, n => by
    rw [Stmt.resolve]
    exact .pure ⟨.nil n, fun _ _ => trivial⟩

theorem resolveItems_ensures : ∀ (scope : Scope) (items : List Item) (n : Nat),
    Ensures (resolveItems scope items) n (fun _ => True) fun items' n' =>
      Renames n n' (itemsOwnNames items) (itemsOwnNames items') ∧
      (itemsHaveCast items = false → (∀ x ∈ itemsLinkedNames items, Dotless x) → itemsCheckable scope.Knows items')
  | scope, [], n => by
    rw [resolveItems]
    exact .pure ⟨.nil n, fun _ _ => trivial⟩
  | scope, .stmt s :: rest, n => by
    rw [resolveItems]
    refine .bind (s.resolve_ensures scope n) ?_
    rintro s' n' ⟨hn, hs⟩
    refine .bind (resolveItems_ensures scope rest n') ?_
    rintro rest' n'' ⟨hn', hr⟩
    refine .pure ⟨hn.append hn', fun hcast hdots => ?_⟩
    simp only [itemsHaveCast, Bool.or_eq_false_iff] at hcast
    simp only [itemsLinkedNames, List.forall_mem_append] at hdots
    exact ⟨hs hcast.1 hdots.1, hr hcast.2 hdots.2⟩
  | scope, .var d :: rest, n => by
    rw [resolveItems]
    refine .bind (d.resolve_ensures scope n) ?_
    rintro ⟨d', scope'⟩ n' ⟨hn, hknows, hd⟩
    refine .bind (resolveItems_ensures scope' rest n') ?_
    rintro rest' n'' ⟨hn', hr⟩
    refine .pure ⟨hn.append hn', fun hcast hdots => ?_⟩
    simp only [itemsHaveCast, Bool.or_eq_false_iff] at hcast
    simp only [itemsLinkedNames, List.forall_mem_append] at hdots
    exact ⟨hd hcast.1 hdots.1, itemsCheckable_mono hknows rest' (hr hcast.2 hdots.2)⟩
  | _, .fn .. :: _, n => by
    rw [resolveItems]
    exact .throw trivial
end

/-! ## Programs -/

/-- A resolved declaration of the top level, and what is known behind it. -/
theorem Decl.resolve_ensures (top : TopLevel) (d : Decl) (n : Nat) :
    Ensures (d.resolve top) n (fun _ => True) fun r n' => Renames n n' d.ownNames r.1.ownNames ∧
      (∀ y, r.2.scope.Knows y → withNames top.scope.Knows [r.1.name] y) ∧
      (d.hasCast = false → (∀ x ∈ d.linkedNames, Dotless x) → r.1.Checkable top.scope.Knows) ∧
      r.2.defined = r.1.definedName?.toList ++ top.defined ∧ ∀ x ∈ r.1.definedName?, x ∉ top.defined := by
  cases d with
  | fn head body =>
    unfold Decl.resolve
    dsimp only
    split
    · exact .throw trivial
    · next hdup =>
      have hlink : ∀ y, (top.scope.link head.ident.name).Knows y → withNames top.scope.Knows [head.ident.name] y :=
        fun y hy => Scope.Knows.of_set hy
      refine .bind (Scope.declareParams_ensures (top.scope.link head.ident.name).enter head.params n) ?_
      rintro ⟨params, inner⟩ n' ⟨hparams, hknows⟩
      cases body with
      | none =>
        refine .pure ⟨hparams.append (.nil n'), hlink, fun _ hd => ⟨hd _ (by simp [Decl.linkedNames]), by simp⟩,
          rfl, ?_⟩
        simp [Decl.definedName?]
      | some items =>
        refine .bind (resolveItems_ensures inner items n') ?_
        rintro items' n'' ⟨hn, hi⟩
        refine .pure ⟨hparams.append hn, hlink, fun hc hd => ⟨hd _ (by simp [Decl.linkedNames]), ?_⟩, rfl, ?_⟩
        · simp only [Option.mem_some_iff, forall_eq']
          refine itemsCheckable_mono (fun y hy => ?_) items' (hi (by simpa [Decl.hasCast] using hc) fun x hx => hd x ?_)
          · rcases hknows y hy with h | h
            · rcases hlink y (Scope.knows_enter.1 h) with h | h
              · exact .inl h
              · exact .inr (by simp_all)
            · exact .inr (List.mem_cons_of_mem _ h)
          · simpa [Decl.linkedNames] using .inr hx
        · simp_all [Decl.definedName?]
  | var d =>
    refine .lift_bind (Expr.resolve?_yields (top.scope.link d.ident.name) d.init) fun init hinit => ?_
    have hlink : ∀ y, (top.scope.link d.ident.name).Knows y → withNames top.scope.Knows [d.ident.name] y :=
      fun y hy => Scope.Knows.of_set hy
    refine .pure ⟨.nil n, hlink, fun hc hd => ⟨hd _ (by simp [Decl.linkedNames]), fun e he => ?_⟩, rfl, ?_⟩
    · exact e.checkable_mono hlink (hinit hc e he)
    · simp [Decl.definedName?]

theorem resolveDecls_ensures : ∀ (top : TopLevel) (ds : List Decl) (n : Nat),
    Ensures (resolveDecls top ds) n (fun _ => True) fun ds' n' =>
      Renames n n' (ds.flatMap Decl.ownNames) (ds'.flatMap Decl.ownNames) ∧
      (ds.any Decl.hasCast = false → (∀ x ∈ ds.flatMap Decl.linkedNames, Dotless x) →
        declsCheckable top.scope.Knows ds') ∧
      (ds'.filterMap Decl.definedName?).Nodup ∧ ∀ x ∈ ds'.filterMap Decl.definedName?, x ∉ top.defined
  | top, [], n => by
    rw [resolveDecls]
    exact .pure ⟨.nil n, fun _ _ => trivial, by simp⟩
  | top, d :: ds, n => by
    rw [resolveDecls]
    refine .bind (d.resolve_ensures top n) ?_
    rintro ⟨d', top'⟩ n' ⟨hn, hknows, hd, hdef, hnew⟩
    refine .bind (resolveDecls_ensures top' ds n') ?_
    rintro ds' n'' ⟨hn', hds, hnodup, hnew'⟩
    refine .pure ⟨hn.append hn', fun hcast hdots => ?_, ?_⟩
    · simp only [List.any_cons, Bool.or_eq_false_iff] at hcast
      simp only [List.flatMap_cons, List.forall_mem_append] at hdots
      refine ⟨hd hcast.1 hdots.1, ?_⟩
      exact declsCheckable_mono hknows ds' (hds hcast.2 hdots.2)
    · dsimp only at hdef
      simp only [hdef, List.mem_append, not_or] at hnew'
      cases hx : d'.definedName? with
      | none =>
        simp only [List.filterMap_cons, hx]
        exact ⟨hnodup, fun x hx => (hnew' x hx).2⟩
      | some x =>
        simp only [List.filterMap_cons, hx]
        refine ⟨List.nodup_cons.2 ⟨fun h => ?_, hnodup⟩, ?_⟩
        · simpa [hx] using hnew' x h
        · simp only [List.mem_cons, forall_eq_or_imp]
          exact ⟨hnew x hx, fun y hy => (hnew' y hy).2⟩

/-- A resolved program has unique names, defines no function twice, and can be checked if it was plain. -/
theorem Program.resolve_yields (p : Program) :
    Yields p.resolve (fun _ => True) fun p' => p'.ownNames = numberFrom 0 p.ownNames ∧
      (p.IsPlain → declsCheckable (fun _ => False) p'.decls) ∧ (p'.decls.filterMap Decl.definedName?).Nodup := by
  refine .bind (Ensures.run' (resolveDecls_ensures {} p.decls 0 |>.mono fun ds' _ ⟨hn, hd, hnodup, _⟩ =>
    (⟨hn.names, hd, hnodup⟩ : _ ∧ _ ∧ _))) fun ds' ⟨hn, hd, hnodup⟩ => .pure ⟨hn, fun hp => ?_, hnodup⟩
  refine declsCheckable_mono (fun y hy => ?_) ds' (hd hp.1 hp.2.2)
  obtain ⟨x, b, hb, _⟩ := hy
  cases hb

end Khel
