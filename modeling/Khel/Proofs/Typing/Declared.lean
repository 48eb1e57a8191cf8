import Khel.Proofs.Program.Declarations
import Khel.Proofs.Typing.Entered
import Khel.Proofs.Typing.Rechecked
import Mathlib.Data.List.Induction

/-!
# What declarations make of a name

Checking changes the symbol table at declarations only, and there only the entry of the declared name. What a declaration
makes of this entry depends on the entry before it. So the table at the end is told by a list, and the entry of a name by
those declarations of the list that declare the name.

* `Declaration.Makes`: the step for one name.
* `SymbolTable.Records`: a table that came about by a list of declarations.
* `checkDecls_declares`, `Program.analyze_prepares`: checking ends with the table that records the declarations.
* `Declaration.Lead`, `SymbolTable.Records.lead`: every name is led to its entry by its own declarations.
* `SymbolTable.Records.names`: names stand in the order of their first declaration.
-/

namespace Khel

/-! ## Symbols -/

/-- The constant that a variable is given, in the width of its type. -/
def VarDecl.value? (d : VarDecl) : Option Int64 := d.init.bind fun e => e.constant?.map d.type.ty.truncate

/-- What a static variable says of its first value, which is `unsaid` if it gives none. -/
inductive VarDecl.Says (d : VarDecl) (unsaid : StaticInit) : StaticInit → Prop where
  | none (hi : d.init = none) : Says d unsaid unsaid
  | value {v : Int64} (hv : d.value? = some v) : Says d unsaid (.value v)

/-- The symbol of a name after one more declaration of it, behind `prior`. -/
inductive Declaration.Makes (prior : Option Symbol) : Declaration → Symbol → Prop where
  | function {head : FnHead} {hasBody : Bool} {s : Symbol} (h : head.symbol hasBody prior = .ok s) :
      Makes prior (.function head hasBody) s
  | top {d : VarDecl} {init : StaticInit} {s : Symbol} (hsaid : d.Says d.unsaid init) (h : d.symbol init prior = .ok s) :
      Makes prior (.top d) s
  /-- An external variable that is known already. -/
  | found {d : VarDecl} {s : Symbol} (hd : d.storage = some .external) (hi : d.init = none) (hprior : prior = some s)
      (hs : s.isFunction = false) (hty : s.ty = d.type.ty) : Makes prior (.inner d) s
  | external {d : VarDecl} (hd : d.storage = some .external) (hi : d.init = none) (hprior : prior = none) :
      Makes prior (.inner d) ⟨d.type.ty, .static .absent true⟩
  | static {d : VarDecl} {init : StaticInit} (hd : d.storage = some .static) (hsaid : d.Says (.value 0) init) :
      Makes prior (.inner d) ⟨d.type.ty, .static init false⟩
  | plain {d : VarDecl} (hd : d.storage = none) : Makes prior (.inner d) ⟨d.type.ty, .automatic⟩
  | automatic (x : String) (ty : Ty) : Makes prior (.automatic x) ⟨ty, .automatic⟩

/-- The table came about by these declarations. -/
inductive SymbolTable.Records : SymbolTable → List Declaration → Prop where
  | nil : Records .empty []
  | snoc {T : SymbolTable} {ds : List Declaration} {d : Declaration} {s : Symbol} (h : T.Records ds)
      (hs : d.Makes (T.get? d.name) s) : Records (Table.set T d.name s) (ds ++ [d])

/-! ## Checking records declarations -/

/-- Setting a name to the value that it has changes nothing. -/
theorem Table.set_get? {α : Type} {t : Table α} {x : String} {a : α} (h : t.get? x = some a) : t.set x a = t := by
  cases t with | mk es =>
  suffices hes : setEntry x a es = es from congrArg Table.mk hes
  induction es with
  | nil => cases h
  | cons e rest ih =>
    obtain ⟨n, b⟩ := e
    change (if n = x then some b else findEntry? x rest) = some a at h
    show (if n = x then (n, a) :: rest else (n, b) :: setEntry x a rest) = (n, b) :: rest
    split at h
    · next hn =>
      cases h
      exact if_pos hn
    · next hn => rw [if_neg hn, ih h]

/-- If the step ends well, the table has recorded these declarations besides those before. -/
def Checking.Declares {α : Type} (m : Checking α) (ds : List Declaration) : Prop :=
  ∀ (T : SymbolTable) (before : List Declaration), T.Records before →
    Ensures m T (fun _ => True) fun _ T' => T'.Records (before ++ ds)

namespace Checking

variable {α β : Type} {m : Checking α} {f : α → Checking β} {ds ds' : List Declaration}

theorem Declares.pure (a : α) : Declares (Pure.pure a : Checking α) [] := by
  intro T before hT
  exact Ensures.pure ((List.append_nil before).symm ▸ hT)

theorem Declares.throw (e : CompileError) : Declares (MonadExcept.throw e : Checking α) ds :=
  fun _ _ _ => Ensures.throw trivial

theorem Declares.bind (hm : Declares m ds) (hf : ∀ a, Declares (f a) ds') : Declares (m >>= f) (ds ++ ds') := by
  intro T before hT
  apply Ensures.bind (hm T before hT)
  intro a T₁ hT₁
  exact List.append_assoc before ds ds' ▸ hf a T₁ _ hT₁

/-- What follows declares nothing. -/
theorem Declares.last (hm : Declares m ds) (hf : ∀ a, Declares (f a) []) : Declares (m >>= f) ds := by
  simpa using hm.bind hf

/-- What comes first declares nothing. -/
theorem Declares.first (hm : Declares m []) (hf : ∀ a, Declares (f a) ds) : Declares (m >>= f) ds := hm.bind hf

/-- A step that leaves the table alone declares nothing. -/
theorem Declares.of_same (h : ∀ T, Ensures m T (fun _ => True) fun _ T' => T' = T) : Declares m [] := by
  intro T before hT
  apply (h T).mono
  rintro a T' rfl
  exact (List.append_nil before).symm ▸ hT

theorem lift_declares {x : Except Fault α} : Declares (liftM x : Checking α) [] := by
  refine .of_same fun T => ?_
  cases x with
  | ok a => exact .pure rfl
  | error e => exact .throw trivial

theorem expr_declares (e : Expr) : Declares (expr e) [] :=
  .of_same fun T => (expr_settles e T).mono fun _ _ h => h.1

theorem exprAs_declares (target : Ty) (e : Expr) : Declares (exprAs target e) [] :=
  .of_same fun T => (exprAs_settles target e T).mono fun _ _ h => h.1

/-- A static variable starts with the constant that it is given. -/
theorem staticInit_value {d : VarDecl} {e : Expr} (hi : d.init = some e) (T : SymbolTable) :
    Ensures (staticInit d.ident.name d.type.ty e) T (fun _ => True) fun r T' => T' = T ∧ d.value? = some r.2 := by
  unfold staticInit
  split
  · exact .throw trivial
  · next v hv =>
    apply Ensures.bind (exprAs_settles d.type.ty e T)
    rintro e' T ⟨rfl, _⟩
    refine .pure ⟨rfl, ?_⟩
    simp only [VarDecl.value?, hi, Option.bind_some, hv, Option.map_some]

end Checking

open Checking

/-- Records one declaration more. -/
theorem Declaration.Makes.enter {d : Declaration} {s : Symbol} {T : SymbolTable} {before : List Declaration}
    (hT : T.Records before) (hs : d.Makes (T.get? d.name) s) :
    Ensures (Checking.enter d.name s) T (fun _ => True) fun _ T' => T'.Records (before ++ [d]) := by
  apply Ensures.of_run
  intro _ T' hrun
  cases hrun
  exact .snoc hT hs

theorem FnHead.enter_declares (head : FnHead) (hasBody : Bool) :
    Declares (head.enter hasBody) [.function head hasBody] := by
  intro T before hT
  apply Ensures.get_bind
  apply Ensures.bind (rejection_ensures (Yields.of_forall fun _ h => h))
  rintro s T ⟨rfl, hs⟩
  exact Declaration.Makes.enter hT (.function hs)

theorem VarDecl.enter_declares {d : VarDecl} {init : StaticInit} (hsaid : d.Says d.unsaid init) :
    Declares (d.enter init) [.top d] := by
  intro T before hT
  apply Ensures.get_bind
  apply Ensures.bind (rejection_ensures (Yields.of_forall fun _ h => h))
  rintro s T ⟨rfl, hs⟩
  exact Declaration.Makes.enter hT (.top hsaid hs)

namespace VarDecl

theorem checkExternal_declares {d : VarDecl} (hd : d.storage = some .external) : Declares d.checkExternal [.inner d] := by
  unfold checkExternal
  split
  · exact .throw _
  · next hi =>
    have hi' : d.init = none := by simpa using hi
    intro T before hT
    apply Ensures.get_bind
    split
    · next prior hprior =>
      split
      · exact .throw trivial
      · next hok =>
        obtain ⟨hs, hty⟩ : prior.isFunction = false ∧ prior.ty = d.type.ty := by simpa using hok
        apply Ensures.pure
        have hmakes : Declaration.Makes (T.get? d.ident.name) (.inner d) prior := .found hd hi' hprior hs hty
        have hsame : Table.set T d.ident.name prior = T := Table.set_get? hprior
        exact hsame ▸ SymbolTable.Records.snoc (d := .inner d) hT hmakes
    · next hprior =>
      apply Ensures.bind (Declaration.Makes.enter (d := .inner d) hT (.external hd hi' hprior))
      intro _ T' hT'
      exact .pure hT'

theorem checkStatic_declares {d : VarDecl} (hd : d.storage = some .static) : Declares d.checkStatic [.inner d] := by
  unfold checkStatic
  intro T before hT
  split
  · next hi =>
    apply Ensures.bind (Declaration.Makes.enter (d := .inner d) hT (.static hd (.none hi)))
    intro _ T' hT'
    exact .pure hT'
  · next e hi =>
    apply Ensures.bind (staticInit_value hi T)
    rintro r T ⟨rfl, hv⟩
    apply Ensures.bind (Declaration.Makes.enter (d := .inner d) hT (.static hd (.value hv)))
    intro _ T' hT'
    exact .pure hT'

theorem checkAutomatic_declares {d : VarDecl} (hd : d.storage = none) : Declares d.checkAutomatic [.inner d] := by
  unfold checkAutomatic
  apply Declares.last
  · intro T before hT
    exact Declaration.Makes.enter (d := .inner d) hT (.plain hd)
  · intro _
    split
    · exact .pure _
    · exact .first (exprAs_declares _ _) fun _ => .pure _

theorem checkLocal_declares (d : VarDecl) : Declares d.checkLocal [.inner d] := by
  unfold checkLocal
  split
  · next hs => exact checkExternal_declares hs
  · next hs => exact checkStatic_declares hs
  · next hs => exact checkAutomatic_declares hs

end VarDecl

theorem Checking.enter_declares (x : String) (ty : Ty) : Declares (enter x ⟨ty, .automatic⟩) [.automatic x] :=
  fun _ _ hT => Declaration.Makes.enter (d := .automatic x) hT (.automatic x ty)

mutual
theorem Stmt.check_declares (ret : Ty) : ∀ s : Stmt, Declares (s.check ret) s.declarations
  | .eval e => by
    rw [Stmt.check]
    exact .first (expr_declares e) fun _ => .pure _
  | .ret none _ | .leave .. | .next .. | .skip => by
    rw [Stmt.check]
    exact .pure _
  | .ret (some e) _ => by
    rw [Stmt.check]
    exact .first (exprAs_declares ret e) fun _ => .pure _
  | .ifThen c s => by
    rw [Stmt.check]
    exact .first (expr_declares c) fun _ => .last (s.check_declares ret) fun _ => .pure _
  | .ifElse c s t => by
    rw [Stmt.check]
    apply Declares.first (expr_declares c)
    intro _
    exact .bind (s.check_declares ret) fun _ => .last (t.check_declares ret) fun _ => .pure _
  | .block items => by
    rw [Stmt.check]
    exact .last (checkItems_declares ret items) fun _ => .pure _
  | .whileLoop c body _ => by
    rw [Stmt.check]
    exact .first (expr_declares c) fun _ => .last (checkItems_declares ret body) fun _ => .pure _
  | .loop none control body _ => by
    rw [Stmt.check]
    exact .first (expr_declares control) fun _ => .last (checkItems_declares ret body) fun _ => .pure _
  | .loop (some ident) control body _ => by
    rw [Stmt.check]
    apply Declares.first (expr_declares control)
    intro control'
    apply Declares.first lift_declares
    intro _
    exact .bind (enter_declares ident.name _) fun _ => .last (checkItems_declares ret body) fun _ => .pure _

theorem checkItems_declares (ret : Ty) : ∀ items : List Item, Declares (checkItems ret items) (itemsDeclarations items)
  | [] => by
    rw [checkItems]
    exact .pure _
  | .stmt s :: rest => by
    rw [checkItems]
    exact .bind (s.check_declares ret) fun _ => .last (checkItems_declares ret rest) fun _ => .pure _
  | .var d :: rest => by
    rw [checkItems]
    exact .bind d.checkLocal_declares fun _ => .last (checkItems_declares ret rest) fun _ => .pure _
  | .fn .. :: _ => by
    rw [checkItems]
    exact .throw _
end

theorem Param.enterAll_declares : ∀ params : List Param,
    Declares (Param.enterAll params) (params.map fun p => .automatic p.ident.name)
  | [] => .pure _
  | p :: ps => .bind (enter_declares p.ident.name _) fun _ => Param.enterAll_declares ps

theorem Decl.check_declares : ∀ d : Decl, Declares d.check d.declarations
  | .fn head none => by
    rw [Decl.check_declared]
    apply Declares.bind (head.enter_declares false)
    intro _
    exact .bind (Param.enterAll_declares head.params) fun _ => .pure _
  | .fn head (some items) => by
    rw [Decl.check_defined]
    apply Declares.bind (head.enter_declares true)
    intro _
    apply Declares.bind (Param.enterAll_declares head.params)
    intro _
    exact .last (checkItems_declares head.ret.ty items) fun _ => .pure _
  | .var d => by
    cases hi : d.init with
    | none =>
      rw [Decl.check_valueless hi]
      exact .last (VarDecl.enter_declares (.none hi)) fun _ => .pure _
    | some e =>
      rw [Decl.check_valued hi]
      intro T before hT
      apply Ensures.bind (staticInit_value hi T)
      rintro r T ⟨rfl, hv⟩
      exact Declares.last (VarDecl.enter_declares (.value hv)) (fun _ => .pure _) T before hT

/-- Checking records the declarations of the top level with all that they declare. -/
theorem checkDecls_declares : ∀ ds : List Decl, Declares (checkDecls ds) (ds.flatMap Decl.declarations)
  | [] => by
    rw [checkDecls]
    exact .pure _
  | d :: ds => by
    rw [checkDecls]
    exact .bind d.check_declares fun _ => .last (checkDecls_declares ds) fun _ => .pure _

/-- The table of a checked program records its declarations. -/
theorem Program.check_records (p : Program) : Yields p.check (fun _ => True) fun r => r.2.Records p.declarations :=
  .bind (checkDecls_declares p.decls .empty [] .nil) fun _ h => .pure h

/-- The table of an accepted program records what is declared in it before it is checked. -/
theorem Program.analyze_prepares {p q : Program} {T : SymbolTable} (h : p.analyze = .ok (q, T)) :
    ∃ r, p.prepare = .ok r ∧ r.check = .ok (q, T) ∧ T.Records r.declarations := by
  rw [p.analyze_eq] at h
  cases hprepare : p.prepare with
  | error e =>
    rw [hprepare] at h
    cases h
  | ok r =>
    rw [hprepare] at h
    exact ⟨r, rfl, h, r.check_records.of_ok h⟩

/-! ## One name -/

/-- What occurs for the first time goes last. -/
theorem eraseDups_snoc {α : Type} [DecidableEq α] (xs : List α) (x : α) :
    (xs ++ [x]).eraseDups = if x ∈ xs then xs.eraseDups else xs.eraseDups ++ [x] := by
  rw [List.eraseDups_append, List.removeAll]
  by_cases hx : x ∈ xs
  · rw [if_pos hx, List.filter_cons_of_neg (by simpa using hx), List.filter_nil, List.eraseDups_nil, List.append_nil]
  · rw [if_neg hx, List.filter_cons_of_pos (by simpa using hx), List.filter_nil]
    rfl

theorem nodup_eraseDups {α : Type} [DecidableEq α] (xs : List α) : xs.eraseDups.Nodup := by
  induction xs using List.reverseRecOn with
  | nil => exact List.nodup_nil
  | append_singleton xs x ih =>
    rw [eraseDups_snoc]
    split
    · exact ih
    · next hx => exact List.nodup_append_comm.1 (List.nodup_cons.2 ⟨fun h => hx (List.mem_eraseDups.1 h), ih⟩)

/-- The declarations of one name, and the symbol that the name has after them. -/
inductive Declaration.Lead : List Declaration → Option Symbol → Prop where
  | nil : Lead [] none
  | snoc {ds : List Declaration} {prior : Option Symbol} {d : Declaration} {s : Symbol} (h : Lead ds prior)
      (hs : d.Makes prior s) : Lead (ds ++ [d]) (some s)

/-- The declarations of a name. -/
def declarationsOf (x : String) (ds : List Declaration) : List Declaration := ds.filter (·.name = x)

theorem declarationsOf_snoc (x : String) (ds : List Declaration) (d : Declaration) :
    declarationsOf x (ds ++ [d]) = declarationsOf x ds ++ if d.name = x then [d] else [] := by
  by_cases h : d.name = x <;> simp [declarationsOf, h]

theorem mem_declarationsOf {x : String} {ds : List Declaration} {d : Declaration} :
    d ∈ declarationsOf x ds ↔ d ∈ ds ∧ d.name = x := by
  simp [declarationsOf]

namespace SymbolTable.Records

variable {T : SymbolTable} {ds : List Declaration}

/-- The declarations of a name lead to its symbol. -/
theorem lead (h : T.Records ds) (x : String) : Declaration.Lead (declarationsOf x ds) (T.get? x) := by
  induction h with
  | nil => exact .nil
  | @snoc T ds d s h hs ih =>
    rw [declarationsOf_snoc, Table.get?_set]
    split
    · next hx =>
      subst hx
      exact .snoc ih hs
    · rwa [List.append_nil]

/-- The names stand in the order of their first declaration. -/
theorem names (h : T.Records ds) : T.names = (ds.map Declaration.name).eraseDups := by
  induction h with
  | nil => rfl
  | @snoc T ds d s h hs ih =>
    rw [Table.names_set, List.map_append, List.map_singleton, eraseDups_snoc, ih]
    simp only [List.mem_eraseDups]

theorem nodup (h : T.Records ds) : T.names.Nodup := h.names ▸ nodup_eraseDups _

end SymbolTable.Records

end Khel
