import Khel.Proofs.Ir.FreshTemps
import Khel.Proofs.Ir.Lowered
import Khel.Proofs.Ir.ProgramLabels
import Khel.Proofs.Ir.WrittenFirst

/-!
# The temporaries of a program

Every variable that a checked program mentions is in its symbol table, and so none has the name of a temporary, if no
variable is called as they are. So each function reads its temporaries behind instructions that write them. Lowering
counts the temporaries of all functions together, and therefore two functions never share one.

* `Checking.Under`: what a checking step gives, if the names in the table behind it are such and such.
* `Stmt.check_lowers`: checked statements are lowered to code that is safe wherever it stands.
* `Program.lower_writes_first`: the functions of an accepted program.
-/

namespace Khel

open Ir Ir.Lowering

/-! ## Checked expressions -/

section Checked

variable {names : String → Prop}

/-- A conversion mentions no other variable. -/
theorem Expr.VarsIn.convert {e : Expr} (he : e.VarsIn names) (target : Ty) :
    Yields (e.convert target) (fun _ => True) (Expr.VarsIn names) :=
  e.convert_yields_of target he he

theorem Expr.VarsIn.convert_bind {α : Type} {e : Expr} (he : e.VarsIn names) (target : Ty)
    {f : Expr → Except CompileError α} {Q : α → Prop} (hf : ∀ e', e'.VarsIn names → Yields (f e') (fun _ => True) Q) :
    Yields (liftM (e.convert target) >>= f) (fun _ => True) Q :=
  Yields.rejection_bind (he.convert target) hf

variable {T : SymbolTable}

mutual
/-- A checked expression mentions variables of the table. -/
theorem Expr.check_varsIn (hT : ∀ x ∈ T.names, names x) : ∀ e : Expr,
    Yields (e.check T) (fun _ => True) (Expr.VarsIn names)
  | .int .. | .long .. | .str .. => by
    rw [Expr.check]
    exact .pure trivial
  | .var note x => by
    rw [Expr.check]
    split
    · exact .throw trivial
    · next s hs =>
      split
      · exact .throw trivial
      · exact .pure (hT x (Table.mem_names_iff.2 (by rw [hs]; rfl)))
  | .call note f args => by
    rw [Expr.check]
    split
    · exact .throw trivial
    · split
      · split
        · next params ret _ hlen =>
          exact .bind (Expr.checkArgs_varsIn hT params args hlen) fun args' hargs => .pure hargs
        · exact .throw trivial
      · exact .throw trivial
  | .unary note op a => by
    rw [Expr.check]
    refine .bind (a.check_varsIn hT) fun a' ha => ?_
    cases op with
    | logicalNot => exact .pure ha
    | negate | complement => exact .after fun _ => .after fun _ => .pure ha
  | .binary note op l r => by
    rw [Expr.check]
    refine .bind (l.check_varsIn hT) fun l' hl => .bind (r.check_varsIn hT) fun r' hr => ?_
    cases op with
    | logicalAnd | logicalOr => exact .pure ⟨hl, hr⟩
    | strict strictOp =>
      refine .after fun tl => .after fun tr => ?_
      refine hl.convert_bind _ fun l'' hl => hr.convert_bind _ fun r'' hr => ?_
      cases strictOp with
      | compare _ => exact .pure ⟨hl, hr⟩
      | arith _ => exact .after fun _ => .pure ⟨hl, hr⟩
  | .assign note l r => by
    rw [Expr.check]
    refine .bind (l.check_varsIn hT) fun l' hl => .bind (r.check_varsIn hT) fun r' hr => ?_
    exact .after fun t => hr.convert_bind _ fun r'' hr => .pure ⟨hl, hr⟩
  | .cond note c t f => by
    rw [Expr.check]
    refine .bind (c.check_varsIn hT) fun c' hc => .bind (t.check_varsIn hT) fun t' ht => ?_
    refine .bind (f.check_varsIn hT) fun f' hf => .after fun tt => .after fun tf => ?_
    exact ht.convert_bind _ fun t'' ht => hf.convert_bind _ fun f'' hf => .pure ⟨hc, ht, hf⟩
  | .range note l r => by
    rw [Expr.check]
    refine .bind (l.check_varsIn hT) fun l' hl => .bind (r.check_varsIn hT) fun r' hr => ?_
    refine .after fun tl => .after fun tr => hl.convert_bind _ fun l'' hl => hr.convert_bind _ fun r'' hr => ?_
    exact .after fun _ => .pure ⟨hl, hr⟩
  | .cast note target a => by
    rw [Expr.check]
    exact .bind (a.check_varsIn hT) fun a' ha => .pure ha

theorem Expr.checkArgs_varsIn (hT : ∀ x ∈ T.names, names x) : ∀ (params : List Ty) (args : List Expr),
    params.length = args.length → Yields (Expr.checkArgs T params args) (fun _ => True) (Expr.AllVarsIn names)
  | [], [], _ => by
    rw [Expr.checkArgs]
    · exact .pure trivial
    · simp
  | param :: params, arg :: args, hlen => by
    rw [Expr.checkArgs]
    refine .bind (arg.check_varsIn hT) fun arg' harg => harg.convert_bind _ fun arg'' harg => ?_
    exact .bind (Expr.checkArgs_varsIn hT params args (Nat.succ.inj hlen)) fun args' hargs => .pure ⟨harg, hargs⟩
end

end Checked

/-! ## Steps of checking -/

/-- The step loses no name. If all names in the table behind it are in `names`, its result satisfies `Q`. -/
def Checking.Under {α : Type} (names : String → Prop) (m : Checking α) (Q : α → Prop) : Prop :=
  ∀ T : SymbolTable, Ensures m T (fun _ => True) fun a T' =>
    (∀ x ∈ T.names, x ∈ T'.names) ∧ ((∀ x ∈ T'.names, names x) → Q a)

namespace Checking

variable {α β : Type} {names : String → Prop} {m : Checking α} {f : α → Checking β} {Q : α → Prop} {R : β → Prop}

theorem Under.pure {a : α} (h : Q a) : Under names (Pure.pure a) Q := fun _ => Ensures.pure ⟨fun _ => id, fun _ => h⟩

theorem Under.throw (e : CompileError) : Under names (MonadExcept.throw e : Checking α) Q :=
  fun _ => Ensures.throw trivial

theorem Under.bind (hm : Under names m Q) (hf : ∀ a, Under names (f a) fun b => Q a → R b) :
    Under names (m >>= f) R := by
  refine fun T => Ensures.bind (hm T) fun a T₁ ha => (hf a T₁).mono fun b T' hb => ?_
  exact ⟨fun x hx => hb.1 x (ha.1 x hx), fun hT' => hb.2 hT' (ha.2 fun x hx => hT' x (hb.1 x hx))⟩

/-- A step enters names that are in the table from then on. -/
theorem Under.of_lists {own linked : List String} (h : Lists m own linked) :
    Under names m fun _ => ∀ x ∈ own, names x := by
  refine fun T => (h T).mono fun _ T' hgrows => ?_
  exact ⟨fun x hx => (hgrows.mem x).2 (.inl hx), fun hT' x hx => hT' x ((hgrows.mem x).2 (.inr (.inl hx)))⟩

theorem Under.of_gives {own linked : List String} (h : Lists m own linked) (hm : Gives m Q) : Under names m Q :=
  fun T => (Yields.and (h T) (hm T)).mono fun _ hr => ⟨fun x hx => (hr.1.mem x).2 (.inl hx), fun _ => hr.2⟩

/-- A step whose result does not matter. -/
theorem Under.after {own linked : List String} (hm : Lists m own linked) (hf : ∀ a, Under names (f a) R) :
    Under names (m >>= f) R :=
  .bind (.of_lists hm) fun a T => (hf a T).mono fun _ _ h => ⟨h.1, fun hT' _ => h.2 hT'⟩

theorem Under.get_bind {f : SymbolTable → Checking β} (hf : ∀ T, Under names (f T) R) :
    Under names (MonadState.get >>= f) R := fun T => Ensures.get_bind (hf T T)

theorem expr_under (e : Expr) : Under names (expr e) (Expr.VarsIn names) := by
  refine fun T => Ensures.get_bind ?_
  cases hrun : e.check T with
  | error _ => exact Ensures.throw trivial
  | ok r => exact Ensures.pure ⟨fun _ => id, fun hT => (Expr.check_varsIn hT e).of_ok hrun⟩

theorem exprAs_under (target : Ty) (e : Expr) : Under names (exprAs target e) (Expr.VarsIn names) := by
  apply Under.bind (expr_under e)
  intro e' T
  cases hrun : e'.convert target with
  | error _ => exact Ensures.throw trivial
  | ok e'' => exact Ensures.pure ⟨fun _ => id, fun _ he => (he.convert target).of_ok hrun⟩

end Checking

open Checking

/-! ## Statements -/

/-- From every state the step ends with code that is safe wherever it stands in the loop `current`. -/
def Ir.Lowering.Stands (current : Option String) (m : Lowering (List Instr)) : Prop :=
  ∀ st : LoweringState, Ensures m st (fun _ => True) fun code st' => Supplies current st.temps st'.temps code []

theorem Ir.Lowering.Stands.nil (current : Option String) : Stands current (pure []) :=
  fun _ => Ensures.pure (.empty current _)

namespace VarDecl

/-- Only the initial value of an automatic variable is lowered. -/
theorem lower_stands (current : Option String) {d : VarDecl}
    (h : d.storage = none → IsSource d.ident.name ∧ ∀ e ∈ d.init, e.VarsIn IsSource) : Stands current d.lower := by
  intro st
  unfold VarDecl.lower
  split
  · next e hs hi =>
    obtain ⟨hx, he⟩ := h hs
    have hvar : (Value.var d.ident.name).IsSource := by
      rintro _ ⟨⟩
      exact hx
    refine .bind (e.lower_supplies st (he e hi)) fun r st' hr => .pure (Supplies.inLoop ?_ current)
    exact (hr.instr rfl rfl (hvar.drawnFrom _ _) le_rfl (by simp [Instr.reads])).drop (by simp)
  · exact .pure (.empty current _)

theorem checkAutomatic_lowers (current : Option String) (d : VarDecl) :
    Under IsSource d.checkAutomatic fun d' => Stands current d'.lower := by
  unfold checkAutomatic
  apply Under.bind (.of_lists (enter_own d.ident.name _))
  intro _
  split
  · next hi => exact .pure fun hx => lower_stands current fun _ => ⟨hx _ (.head _), by simp [hi]⟩
  · apply Under.bind (exprAs_under _ _)
    intro e'
    exact .pure fun he hx => lower_stands current fun _ => ⟨hx _ (.head _), by simpa using he⟩

theorem checkLocal_lowers (current : Option String) (d : VarDecl) :
    Under IsSource d.checkLocal fun d' => Stands current d'.lower := by
  unfold checkLocal
  split
  · next hs =>
    refine .of_gives d.checkExternal_lists fun T => (d.checkExternal_same T).mono fun d' _ hd' => ?_
    exact lower_stands current fun hnone => by simp [hd', hs] at hnone
  · next hs =>
    refine .of_gives d.checkStatic_lists fun T => (d.checkStatic_repeats T).mono fun d' _ hd' => ?_
    exact lower_stands current fun hnone => by simp [hd'.1, hs] at hnone
  · exact d.checkAutomatic_lowers current

end VarDecl

/-- A checked loop, with or without a variable, that has the code of one. -/
theorem Stmt.lower_stands_loop {current : Option String} {var : Option Ident} {control : Expr} {body : List Item}
    {id : Option String} (hvar : ∀ ident ∈ var, IsSource ident.name) (hc : control.VarsIn IsSource)
    (hb : Stands id (lowerItems body)) : Stands current (Stmt.loop var control body id).lower := by
  intro st
  rw [Stmt.lower]
  apply Ensures.bind (loopId_ensures "loop" id st)
  rintro i _ ⟨rfl, rfl⟩
  refine .bind ((label_mints _).temps_le _) fun start st₁ h₁ => ?_
  split
  · next ident _ l r =>
    have hident : (Value.var ident.name).IsSource := by
      rintro _ ⟨⟩
      exact hvar ident rfl
    refine .bind (ident.loopTy_mints.temps_le st₁) fun ty st₂ h₂ => ?_
    refine .bind (l.lower_supplies st₂ hc.1) fun first st₃ hf => .bind (r.lower_supplies st₃ hc.2) fun last st₄ hl => ?_
    refine .bind (temp_drawn _ st₄) fun dst st₅ hd => .bind (hb st₅) fun code st' hb => .pure ?_
    obtain ⟨h₅, hdst⟩ := hd
    have hroom := hf.room
    have hroom₁ := hl.room
    have hroom₂ := hb.room
    exact .rangeLoop hident (Value.isSource_ofTy 1 ty) (hdst.widen (by omega) (by omega))
      (hf.widen (by omega) (by omega)) (hl.widen (by omega) (by omega)) (hb.widen (by omega) le_rfl)
  · refine .bind (control.lower_supplies st₁ hc) fun test st₂ hc => .bind (hb st₂) fun code st' hb => .pure ?_
    have hroom := hc.room
    exact .whileLoop (hc.widen h₁ hb.room) (hb.widen (by omega) le_rfl)

mutual
/-- A checked statement is lowered to code that is safe wherever it stands. -/
theorem Stmt.check_lowers (ret : Ty) : ∀ {current : Option String} (s : Stmt), s.Labelled current →
    Under IsSource (s.check ret) fun s' => Stands current s'.lower
  | current, .eval e, _ => by
    rw [Stmt.check]
    refine .bind (expr_under e) fun e' => .pure fun he st => ?_
    rw [Stmt.lower]
    exact .bind (Expr.lower_supplies _ st he) fun _ _ h => .pure ((h.drop (by simp)).inLoop current)
  | current, .ret none span, _ => by
    rw [Stmt.check]
    refine .pure fun st => ?_
    rw [Stmt.lower]
    exact .pure ((Supplies.empty current _).ret (.inr (Value.isSource_int 0)))
  | current, .ret (some e) span, _ => by
    rw [Stmt.check]
    refine .bind (exprAs_under ret e) fun e' => .pure fun he st => ?_
    rw [Stmt.lower]
    exact .bind (e'.lower_supplies st he) fun _ _ h => .pure ((h.inLoop current).ret (.inl (by simp)))
  | current, .ifThen c s, hl => by
    rw [Stmt.check]
    refine .bind (expr_under c) fun c' => .bind (s.check_lowers ret hl) fun s' => .pure fun hs hc st => ?_
    rw [Stmt.lower]
    refine .bind ((label_mints _).temps_le st) fun done st₁ h₁ => ?_
    refine .bind (Expr.lower_supplies _ st₁ hc) fun test st₂ hc => .bind (hs st₂) fun body st' hb => .pure ?_
    have hroom := hc.room
    exact .ifThen (hc.widen h₁ hb.room) (hb.widen (by omega) le_rfl)
  | current, .ifElse c s t, hl => by
    rw [Stmt.check]
    refine .bind (expr_under c) fun c' => .bind (s.check_lowers ret hl.1) fun s' => ?_
    refine .bind (t.check_lowers ret hl.2) fun t' => .pure fun ht hs hc st => ?_
    rw [Stmt.lower]
    refine .bind ((label_mints _).temps_le st) fun isFalse st₁ h₁ => ?_
    refine .bind ((label_mints _).temps_le st₁) fun done st₂ h₂ => ?_
    refine .bind (Expr.lower_supplies _ st₂ hc) fun test st₃ hc => .bind (hs st₃) fun yes st₄ hs => ?_
    refine .bind (ht st₄) fun no st' ht => .pure ?_
    have hroom := hc.room
    have hroom₁ := hs.room
    have hroom₂ := ht.room
    exact .ifElse (hc.widen (by omega) (by omega)) (hs.widen (by omega) (by omega)) (ht.widen (by omega) le_rfl)
  | _, .block items, hl => by
    rw [Stmt.check]
    refine .bind (checkItems_lowers ret items hl) fun items' => .pure fun hi => ?_
    rw [Stmt.lower]
    exact hi
  | current, .whileLoop c body id, hl => by
    rw [Stmt.check]
    refine .bind (expr_under c) fun c' => .bind (checkItems_lowers ret body hl.2) fun body' => ?_
    refine .pure fun hb hc st => ?_
    rw [Stmt.lower]
    apply Ensures.bind (loopId_ensures "while" id st)
    rintro i _ ⟨rfl, rfl⟩
    refine .bind ((label_mints _).temps_le _) fun start st₁ h₁ => ?_
    refine .bind (Expr.lower_supplies _ st₁ hc) fun test st₂ hc => .bind (hb st₂) fun code st' hb => .pure ?_
    have hroom := hc.room
    exact .whileLoop (hc.widen h₁ hb.room) (hb.widen (by omega) le_rfl)
  | current, .loop none control body id, hl => by
    rw [Stmt.check]
    refine .bind (expr_under control) fun control' => .bind (checkItems_lowers ret body hl.2) fun body' => ?_
    exact .pure fun hb hc => Stmt.lower_stands_loop (by simp) hc hb
  | current, .loop (some ident) control body id, hl => by
    rw [Stmt.check]
    refine .bind (expr_under control) fun control' => .after (lift_lists control'.counterTy) fun _ => ?_
    refine .bind (.of_lists (enter_own ident.name _)) fun _ => ?_
    refine .bind (checkItems_lowers ret body hl.2) fun body' => ?_
    exact .pure fun hb hx hc => Stmt.lower_stands_loop (by simpa using hx) hc hb
  | current, .leave span id, hl => by
    rw [Stmt.check]
    refine .pure fun st => ?_
    rw [Stmt.lower]
    apply Ensures.bind (loopId_ensures "break" id st)
    rintro i _ ⟨rfl, rfl⟩
    exact .pure (.jump _ (hl.2 ▸ rfl) (.inr rfl))
  | current, .next span id, hl => by
    rw [Stmt.check]
    refine .pure fun st => ?_
    rw [Stmt.lower]
    apply Ensures.bind (loopId_ensures "continue" id st)
    rintro i _ ⟨rfl, rfl⟩
    exact .pure (.jump _ (hl.2 ▸ rfl) (.inl rfl))
  | _, .skip, _ => by
    rw [Stmt.check]
    refine .pure ?_
    rw [Stmt.lower]
    exact .nil _

theorem checkItems_lowers (ret : Ty) : ∀ {current : Option String} (items : List Item), itemsLabelled current items →
    Under IsSource (checkItems ret items) fun items' => Stands current (lowerItems items')
  | _, [], _ => by
    rw [checkItems]
    apply Under.pure
    rw [lowerItems]
    exact .nil _
  | _, .stmt s :: rest, h => by
    rw [checkItems]
    refine .bind (s.check_lowers ret h.1) fun s' => .bind (checkItems_lowers ret rest h.2) fun rest' => ?_
    refine .pure fun hr hs st => ?_
    rw [lowerItems]
    exact .bind (hs st) fun _ st₁ hs => .bind (hr st₁) fun _ _ hr => .pure (hs.append hr)
  | current, .var d :: rest, h => by
    rw [checkItems]
    refine .bind (d.checkLocal_lowers current) fun d' => .bind (checkItems_lowers ret rest h) fun rest' => ?_
    refine .pure fun hr hd st => ?_
    rw [lowerItems]
    exact .bind (hd st) fun _ st₁ hd => .bind (hr st₁) fun _ _ hr => .pure (hd.append hr)
  | _, .fn .. :: _, _ => by
    rw [checkItems]
    exact .throw _
end

/-! ## Functions -/

namespace Ir

/-- The function names the temporary with this number. -/
def Function.HasTemp (f : Function) (n : Nat) : Prop :=
  numbered "tmp" n ∈ f.params ∨ ∃ i ∈ f.code, .var (numbered "tmp" n) ∈ i.values

/-- A path from the first instruction of the code: the instructions on it so far, and the point that it has come to. -/
inductive Path (code : List Instr) : List Instr → List Instr → Prop
  | start : Path code [] code
  | step {done rest next : List Instr} {i : Instr} : Path code done (i :: rest) → Flows code (i :: rest) next →
    Path code (done ++ [i]) next

/-- Whatever path is taken, a temporary that is read was written on it before. -/
def Function.WritesFirst (f : Function) : Prop :=
  ∀ done i rest, Path f.code done (i :: rest) → ∀ n, .var (numbered "tmp" n) ∈ i.reads →
    ∃ j ∈ done, j.dst? = some (.var (numbered "tmp" n))

/-- Behind a path, what it has written is known. -/
theorem Path.safe {code done point : List Instr} {known : String → Prop} (hsafe : ∀ n, Safe code n known code)
    (h : Path code done point) :
    ∀ n, Safe code n (fun x => known x ∨ ∃ i ∈ done, i.dst? = some (.var x)) point := by
  induction h with
  | start => exact fun n => (hsafe n).knowing fun _ => .inl
  | @step done rest next i _ hflow ih =>
    intro n
    obtain ⟨_, hnext⟩ := ih (n + 1)
    refine (hnext next hflow).knowing fun x hx => ?_
    rcases hx with (hx | ⟨j, hj, hd⟩) | hd
    · exact .inl hx
    · exact .inr ⟨j, List.mem_append_left _ hj, hd⟩
    · exact .inr ⟨i, by simp, hd⟩

/-- The code of a function stands alone, and its temporaries have numbers from `lo` to below `hi`. -/
structure Function.Supplied (lo hi : Nat) (f : Function) : Prop where
  code : Supplies none lo hi f.code []
  params : ∀ x ∈ f.params, IsSource x

namespace Function.Supplied

variable {f g : Function} {lo mid hi lo' hi' : Nat}

theorem widen (h : f.Supplied lo hi) (hlo : lo' ≤ lo) (hhi : hi ≤ hi') : f.Supplied lo' hi' :=
  ⟨h.code.widen hlo hhi, h.params⟩

theorem writesFirst (h : f.Supplied lo hi) (hnodup : (labels f.code).Nodup) : f.WritesFirst := by
  have hsafe : ∀ n, Safe f.code n IsSource f.code := by
    intro n
    have haround : Around none f.code n IsSource := ⟨hnodup, fun _ => id, nofun⟩
    have hend : Safe f.code n (having IsSource []) [] := by cases n <;> trivial
    simpa using h.code.safe haround (by simp) hend
  intro done i rest hpath n hread
  obtain ⟨hreads, _⟩ := hpath.safe hsafe 1
  exact (hreads _ hread).resolve_left fun hsource => hsource n rfl

theorem hasTemp (h : f.Supplied lo hi) {n : Nat} (hn : f.HasTemp n) : lo ≤ n ∧ n < hi := by
  rcases hn with hn | ⟨i, hi, hn⟩
  · exact absurd rfl (h.params _ hn n)
  · rcases h.code.drawn i hi _ hn _ rfl with hsource | ⟨m, hlo, hhi, heq⟩
    · exact absurd rfl (hsource n)
    · obtain rfl := (numbered_inj.1 heq).2
      exact ⟨hlo, hhi⟩

/-- Functions whose temporaries are numbered one after the other share none. -/
theorem apart (hf : f.Supplied lo mid) (hg : g.Supplied mid hi) : ∀ n, ¬ (f.HasTemp n ∧ g.HasTemp n) := by
  rintro n ⟨hnf, hng⟩
  have hf := hf.hasTemp hnf
  have hg := hg.hasTemp hng
  omega

end Function.Supplied

end Ir

/-- The function is lowered to one that stands alone, if the declaration has a body. -/
def Decl.Stands : Decl → Prop
  | .fn head body => ∀ items ∈ body,
    (∀ x ∈ paramNames head.params, IsSource x) ∧ Lowering.Stands none (lowerItems items)
  | .var _ => True

theorem Decl.check_lowers : ∀ d : Decl, d.Labelled → Under IsSource d.check Decl.Stands
  | .var d, _ => by
    apply Under.of_gives (Decl.var d).check_lists
    cases hi : d.init with
    | none =>
      rw [Decl.check_valueless hi]
      exact .after fun _ => .pure trivial
    | some e =>
      rw [Decl.check_valued hi]
      exact .after fun _ => .after fun _ => .pure trivial
  | .fn head none, _ => by
    apply Under.of_gives (Decl.fn head none).check_lists
    rw [Decl.check_declared]
    exact .after fun _ => .after fun _ => .pure (by simp [Decl.Stands])
  | .fn head (some items), hl => by
    rw [Decl.check]
    refine .get_bind fun T => .after (lift_lists _) fun _ => .after (enter_linked head.ident.name _) fun _ => ?_
    refine .bind (.of_lists (Param.enterAll_lists head.params)) fun _ => ?_
    refine .bind (checkItems_lowers head.ret.ty items hl) fun items' => .pure fun hi hparams => ?_
    rintro _ ⟨⟩
    exact ⟨hparams, hi⟩

theorem checkDecls_lowers : ∀ ds : List Decl, (∀ d ∈ ds, d.Labelled) →
    Under IsSource (checkDecls ds) fun ds' => ∀ d ∈ ds', d.Stands
  | [], _ => by
    rw [checkDecls]
    exact .pure (by simp)
  | d :: ds, h => by
    obtain ⟨hd, hds⟩ := List.forall_mem_cons.1 h
    rw [checkDecls]
    refine .bind (d.check_lowers hd) fun d' => .bind (checkDecls_lowers ds hds) fun ds' => ?_
    exact .pure fun hds' hd' => List.forall_mem_cons.2 ⟨hd', hds'⟩

theorem FnHead.lower_supplied {head : FnHead} {body : List Item} (hparams : ∀ x ∈ paramNames head.params, IsSource x)
    (hbody : Lowering.Stands none (lowerItems body)) (st : LoweringState) :
    Ensures (head.lower (some body)) st (fun _ => True) fun f st' => f.Supplied st.temps st'.temps := by
  apply Ensures.bind (head.isGlobalNow_ensures st)
  rintro isGlobal _ ⟨rfl, _⟩
  refine .bind (hbody _) fun code st' hcode => .pure ⟨?_, hparams⟩
  show Supplies none _ _ (if itemsHaveReturn body then code else code ++ [.ret (.int 0)]) []
  split
  · exact hcode
  · exact hcode.ret (.inr (Value.isSource_int 0))

/-- Functions share one counter for their temporaries. -/
theorem lowerFunctions_supplied : ∀ (ds : List Decl) (st : LoweringState), (∀ d ∈ ds, d.Stands) →
    Ensures (lowerFunctions ds) st (fun _ => True) fun fs st' => st.temps ≤ st'.temps ∧
      (∀ f ∈ fs, f.Supplied st.temps st'.temps) ∧ fs.Pairwise fun f g => ∀ n, ¬ (f.HasTemp n ∧ g.HasTemp n)
  | [], st, _ => by
    rw [lowerFunctions]
    exact .pure ⟨le_rfl, by simp, .nil⟩
  | .fn head (some body) :: rest, st, h => by
    obtain ⟨hd, hrest⟩ := List.forall_mem_cons.1 h
    obtain ⟨hparams, hbody⟩ := hd body rfl
    rw [lowerFunctions]
    apply Ensures.bind (FnHead.lower_supplied hparams hbody st)
    intro f st₁ hf
    apply Ensures.bind (lowerFunctions_supplied rest st₁ hrest)
    rintro fs st' ⟨hle, hfs, hapart⟩
    have hroom := hf.code.room
    refine .pure ⟨Nat.le_trans hroom hle, List.forall_mem_cons.2 ⟨hf.widen le_rfl hle, fun g hg => ?_⟩, ?_⟩
    · exact (hfs g hg).widen hroom le_rfl
    · exact .cons (fun g hg => hf.apart (hfs g hg)) hapart
  | .fn _ none :: rest, st, h | .var _ :: rest, st, h => by
    rw [lowerFunctions]
    exact lowerFunctions_supplied rest st (List.forall_mem_cons.1 h).2

/-! ## Programs -/

/-- Let no linked name have a point in it, and no variable be called as temporaries are. The functions of an accepted
program write each temporary before they read it, whatever path is taken, and no two of them share one. -/
theorem Program.lower_writes_first {p q : Program} {T : SymbolTable} (hdots : ∀ x ∈ p.linkedNames, Dotless x)
    (htmp : "tmp" ∉ p.ownNames) (ha : p.analyze = .ok (q, T)) :
    ∃ ir T', q.lower T = .ok (ir, T') ∧ (∀ f ∈ ir.functions, f.WritesFirst) ∧
      ir.functions.Pairwise fun f g => ∀ n, ¬ (f.HasTemp n ∧ g.HasTemp n) := by
  obtain ⟨ir, T', hl⟩ := Program.lower_works hdots ha
  refine ⟨ir, T', hl, ?_⟩
  have hsource : ∀ x ∈ T.names, IsSource x := by
    rintro x hx n rfl
    exact htmp (List.mem_of_getElem? ((Program.analyze_temp_iff hdots ha n).1 hx))
  have hstands : ∀ d ∈ q.decls, d.Stands := by
    obtain ⟨r, hprepare, hcheck, _⟩ := Program.analyze_prepares ha
    obtain ⟨⟨ds, _⟩, hrun, hresult⟩ := Except.exists_of_bind hcheck
    cases hresult
    have hlabelled : ∀ d ∈ r.decls, d.Labelled := fun d hd => (p.prepare_lowerable.of_ok hprepare d hd).2
    exact ((checkDecls_lowers r.decls hlabelled Table.empty).of_ok hrun).2 hsource
  obtain ⟨hloops, hlab⟩ := p.analyze_loops.of_ok ha
  obtain ⟨st, hrun, _⟩ := Program.lower_mints hl
  obtain ⟨_, hsupplied, hapart⟩ := (lowerFunctions_supplied q.decls _ hstands).of_ok hrun
  have hnodup := (Program.lower_labels hloops hlab hl).1
  refine ⟨fun f hf => (hsupplied f hf).writesFirst ?_, hapart⟩
  exact (List.sublist_flatten_of_mem (List.mem_map_of_mem hf)).nodup hnodup

/-- A function with a loop that tests two things and a choice behind it, and one with a sum. -/
def loopThenChoice : Program :=
  ⟨[.fn ⟨⟨"f", .nowhere⟩, [⟨⟨"a", .nowhere⟩, .int⟩, ⟨⟨"b", .nowhere⟩, .int⟩], .int, true, false⟩
      (some [.stmt (.whileLoop (.binary {} .logicalAnd (.var {} "a") (.var {} "b"))
          [.stmt (.eval (.assign {} (.var {} "a")
            (.binary {} (.strict (.arith .sub)) (.var {} "a") (.int {} 1))))] none),
        .stmt (.ret (some (.cond {} (.var {} "a") (.var {} "b") (.int {} 2))) .nowhere)]),
    .fn ⟨⟨"g", .nowhere⟩, [⟨⟨"a", .nowhere⟩, .int⟩], .int, true, false⟩
      (some [.stmt (.ret (some (.binary {} (.strict (.arith .add)) (.var {} "a") (.int {} 1))) .nowhere)])]⟩

/-- Its first function has three temporaries, and its second one the fourth. -/
theorem loopThenChoice_writes_first : (∀ x ∈ loopThenChoice.linkedNames, Dotless x) ∧ "tmp" ∉ loopThenChoice.ownNames ∧
    ∃ q T ir T', loopThenChoice.analyze = .ok (q, T) ∧ q.lower T = .ok (ir, T') ∧
      (∀ f ∈ ir.functions, f.WritesFirst) ∧ ir.functions.Pairwise fun f g => ∀ n, ¬ (f.HasTemp n ∧ g.HasTemp n) := by
  have hdots : ∀ x ∈ loopThenChoice.linkedNames, Dotless x := by decide
  have htmp : "tmp" ∉ loopThenChoice.ownNames := by decide
  obtain ⟨q, T, ha⟩ : ∃ q T, loopThenChoice.analyze = .ok (q, T) := ⟨_, _, rfl⟩
  obtain ⟨ir, T', hl, hfirst, hapart⟩ := Program.lower_writes_first hdots htmp ha
  exact ⟨hdots, htmp, q, T, ir, T', ha, hl, hfirst, hapart⟩

end Khel
