import Khel.Proofs.Naming.Automatic
import Khel.Proofs.Renaming.Checking
import Khel.Proofs.Renaming.Machine
import Mathlib.Logic.Equiv.Basic

/-!
# Names of automatic variables never reach the output

If two programs resolve to the same program up to places and a renaming of automatic variables, then they compile alike.
The renaming extends to a replacement of all names that keeps them apart and leaves all other names of both programs, and
each stage does the same to a program and to the program with replaced names.

* `Program.SameUpTo`: the programs differ in places and in the names of automatic variables only.
* `Program.SameUpTo.exists_spares`: the renaming of one program into the other, as a replacement of all names.
* `compileResolved_mirrors`: all stages behind resolution, side by side.
* `compile_sameUpTo`: such programs compile alike.
-/

namespace Khel

/-! ## Renamings -/

/-- A renaming of some names that keeps them apart extends to all names, and moves no others than it must. -/
theorem exists_extension (σ : String → String) (xs : List String)
    (h : ∀ x ∈ xs, ∀ y ∈ xs, σ x = σ y → x = y) : ∃ τ : Equiv.Perm String, (∀ x ∈ xs, τ x = σ x) ∧
      ∀ y, y ∉ xs → y ∉ xs.map σ → τ y = y := by
  induction xs with
  | nil => exact ⟨Equiv.refl String, by simp, fun _ _ _ => rfl⟩
  | cons x xs ih =>
    obtain ⟨τ, hτ, hothers⟩ := ih fun y hy z hz => h y (List.mem_cons_of_mem _ hy) z (List.mem_cons_of_mem _ hz)
    refine ⟨τ.trans (Equiv.swap (τ x) (σ x)), ?_, ?_⟩
    · intro y hy
      by_cases hyx : y = x
      · rw [hyx]
        exact Equiv.swap_apply_left _ _
      · -- The names before `x` are where they should be, and the exchange does not touch them.
        have hmem : y ∈ xs := (List.mem_cons.1 hy).resolve_left hyx
        have hne : τ y ≠ τ x := fun he => hyx (τ.injective he)
        have hne' : τ y ≠ σ x := fun he => hyx (h y hy x List.mem_cons_self ((hτ y hmem).symm.trans he))
        rw [Equiv.trans_apply, Equiv.swap_apply_of_ne_of_ne hne hne', hτ y hmem]
    · intro y hy hy'
      rw [List.mem_cons, not_or] at hy
      rw [List.map_cons, List.mem_cons, not_or] at hy'
      have hfix : τ y = y := hothers y hy.2 hy'.2
      have hne : τ y ≠ τ x := fun he => hy.1 (τ.injective he)
      have hne' : τ y ≠ σ x := fun he => hy'.1 (hfix.symm.trans he)
      rw [Equiv.trans_apply, Equiv.swap_apply_of_ne_of_ne hne hne', hfix]

/-- The programs differ in places and in the names of automatic variables only, and `σ` renames the variables of the
first one to those of the second one. -/
structure Program.SameUpTo (σ : String → String) (r r' : Program) : Prop where
  injective : ∀ x ∈ r.autoNames, ∀ y ∈ r.autoNames, σ x = σ y → x = y
  others : ∀ x, x ∉ r.autoNames → σ x = x
  same : r.change (.blind σ) = r'.change (.blind id)

namespace Program

variable {p p' r r' : Program} {σ : String → String}

theorem SameUpTo.storages (h : r.SameUpTo σ r') : r'.storages = r.storages.map (Prod.map σ id) := by
  have hr := r.storages_change (c := .blind σ) (ρ := σ) fun _ => rfl
  have hr' := r'.storages_change (c := .blind id) (ρ := id) fun _ => rfl
  rw [← hr, h.same, hr', Prod.map_id, List.map_id]

theorem SameUpTo.autoNames (h : r.SameUpTo σ r') : r'.autoNames = r.autoNames.map σ := by
  rw [Program.autoNames, Program.autoNames, h.storages, namesKept, namesKept, List.filter_map, List.map_map,
    List.map_map]
  rfl

/-- What a resolved program mentions has a declaration. -/
theorem exists_storage (h : p.resolve = .ok r) {x : String} (hx : x ∈ r.mentioned) :
    ∃ storage, (x, storage) ∈ r.storages := by
  obtain ⟨hown, hlinked⟩ := r.namesKept_storages
  rcases List.mem_append.1 (forall_mentioned h x hx) with hx | hx
  · rw [← hown, mem_namesKept] at hx
    exact hx.imp fun _ h => h.2
  · rw [← hlinked, mem_namesKept] at hx
    exact hx.imp fun _ h => h.2

/-- No automatic variable has the name of a temporary, unless it is called so in the text. -/
theorem temp_notMem_autoNames (h : p.resolve = .ok r) (htmp : "tmp" ∉ p.autoNames) (n : Nat) :
    numbered "tmp" n ∉ r.autoNames := by
  intro hn
  obtain ⟨y, hy, m, he⟩ := autoNames_numbered h hn
  exact htmp ((numbered_inj.1 he).1 ▸ hy)

/-- The renaming extends to a replacement of all names, which leaves those of temporaries and those that the program
declares with a storage. -/
theorem SameUpTo.exists_spares (h : r.SameUpTo σ r') (hr : p.resolve = .ok r) (hr' : p'.resolve = .ok r')
    (hdots : ∀ x ∈ p.linkedNames, Dotless x) (hdots' : ∀ x ∈ p'.linkedNames, Dotless x) (htmp : "tmp" ∉ p.autoNames)
    (htmp' : "tmp" ∉ p'.autoNames) :
    ∃ ρ, SparesTemps ρ ∧ FixesKept ρ r.storages ∧ r.change (.blind ρ) = r'.change (.blind id) := by
  -- `σ` itself will not do: it may take a name of `r` to one that it leaves, if that one is no name of `r`.
  obtain ⟨τ, hτ, hothers⟩ := exists_extension σ r.autoNames h.injective
  rw [← h.autoNames] at hothers
  have hkept : ∀ x storage, (x, some storage) ∈ r.storages → τ x = x ∧ σ x = x := by
    intro x storage hx
    have hauto : x ∉ r.autoNames := fun hauto => storages_unique hr hdots hauto hx
    have hσ : σ x = x := h.others x hauto
    have hx' : (x, some storage) ∈ r'.storages := by
      rw [h.storages]
      exact List.mem_map.2 ⟨_, hx, by rw [Prod.map, hσ]; rfl⟩
    have hauto' : x ∉ r'.autoNames := fun hauto' => storages_unique hr' hdots' hauto' hx'
    exact ⟨hothers x hauto hauto', hσ⟩
  have hagree : ∀ x storage, (x, storage) ∈ r.storages → τ x = σ x := by
    intro x storage hx
    cases storage with
    | none => exact hτ x (mem_autoNames.2 hx)
    | some storage =>
      obtain ⟨hτx, hσx⟩ := hkept x storage hx
      rw [hτx, hσx]
  refine ⟨τ, ⟨τ.injective, ?_⟩, ?_, ?_⟩
  · exact fun n => hothers _ (temp_notMem_autoNames hr htmp n) (temp_notMem_autoNames hr' htmp' n)
  · intro e he hstorage
    obtain ⟨x, storage⟩ := e
    cases storage with
    | none => exact absurd rfl hstorage
    | some storage => exact (hkept x storage he).1
  · rw [← h.same]
    apply r.blind_congr
    · intro x hx
      obtain ⟨storage, hx⟩ := exists_storage hr hx
      exact hagree x storage hx
    · exact fun e he => hagree e.1 e.2 he

end Program

/-! ## Functions that live elsewhere -/

section Stages

variable {ρ : String → String}

theorem Decl.check_external (d : Decl) (T : SymbolTable) :
    Ensures d.check T (fun _ => True) fun d' _ => d'.externalName? = d.externalName? := by
  unfold Decl.check
  cases d with
  | fn head body =>
    apply Ensures.get_bind
    refine .bind (.any _ _) fun _ _ _ => .bind (.any _ _) fun _ _ _ => .bind (.any _ _) fun _ _ _ => ?_
    cases body with
    | none => exact .pure rfl
    | some items => exact .bind (.any _ _) fun _ _ _ => .pure rfl
  | var d =>
    dsimp only
    cases d.init with
    | none =>
      apply Ensures.get_bind
      exact .bind (.any _ _) fun _ _ _ => .bind (.any _ _) fun _ _ _ => .pure rfl
    | some e =>
      apply Ensures.bind (.any _ _)
      intro _ _ _
      apply Ensures.get_bind
      exact .bind (.any _ _) fun _ _ _ => .bind (.any _ _) fun _ _ _ => .pure rfl

theorem checkDecls_externals : ∀ (ds : List Decl) (T : SymbolTable), Ensures (checkDecls ds) T (fun _ => True)
    fun ds' _ => ds'.filterMap Decl.externalName? = ds.filterMap Decl.externalName?
  | [], T => .pure rfl
  | d :: ds, T => by
    rw [checkDecls]
    apply Ensures.bind (d.check_external T)
    intro d' T₁ hd
    apply Ensures.bind (checkDecls_externals ds T₁)
    intro ds' T₂ hds
    exact .pure (by rw [List.filterMap_cons, List.filterMap_cons, hd, hds])

theorem Decl.mem_storages_of_external {d : Decl} {x : String} (h : d.externalName? = some x) :
    (x, some .external) ∈ d.storages := by
  cases d with
  | var d => cases h
  | fn head body =>
    cases body with
    | some items => cases h
    | none =>
      have hname : head.ident.name = x := by
        by_cases hx : head.isExternal = true <;> simp_all [Decl.externalName?]
      exact hname ▸ List.mem_cons_self

/-- The functions that live elsewhere keep their names. -/
theorem Program.check_externals {p q : Program} {T : SymbolTable} (h : FixesKept ρ p.storages)
    (hcheck : p.check = .ok (q, T)) : ∀ x ∈ q.decls.filterMap Decl.externalName?, ρ x = x := by
  obtain ⟨⟨ds, T'⟩, hrun, hq⟩ := Except.exists_of_bind hcheck
  cases hq
  have hsame := (checkDecls_externals p.decls .empty).of_ok hrun
  rw [hsame]
  intro x hx
  obtain ⟨d, hd, hx⟩ := List.mem_filterMap.1 hx
  exact h _ (List.mem_flatMap.2 ⟨d, hd, Decl.mem_storages_of_external hx⟩) (by simp)

/-! ## All stages -/

/-- The stages from labelling to lowering. -/
def Program.lowerResolved (r : Program) : Except CompileError (Ir.Program × SymbolTable) := do
  let r ← r.labelLoops
  let (q, T) ← r.check
  CompileError.ofFaulting (q.lower T)

/-- The stages behind lowering. -/
def Ir.Program.output (options : Options) (ir : Ir.Program) (T : SymbolTable) : Except CompileError Output := do
  if options.printIr then return .irListing ir.listing
  else
    let (code, _) ← CompileError.ofFaulting (ir.toMachine T)
    if options.printMachine then return .machineListing code.listing
    else
      let (text, _) ← CompileError.ofFaulting (code.toAssembly options)
      return .assembly text

theorem compile_of_resolve {p r : Program} (h : p.resolve = .ok r) (options : Options) :
    compile options p = r.lowerResolved >>= fun s => s.1.output options s.2 := by
  unfold compile Program.analyze Program.lowerResolved
  rw [h]
  simp only [bind_assoc]
  rfl

/-- A program with other names is lowered to the same code with other names. -/
theorem Program.lowerResolved_mirrors (hρ : SparesTemps ρ) {r : Program} (h : FixesKept ρ r.storages) :
    Mirrors (Prod.map (Ir.Program.rename ρ) (Table.rename ρ)) r.lowerResolved
      (r.change (.blind ρ)).lowerResolved := by
  apply Mirrors.bind_ok (r.labelLoops_mirrors (.blind ρ)).rejecting
  intro r₁ hr₁
  have hstorages : r₁.storages = r.storages := r.labelLoops_storages.rejecting.of_ok hr₁
  rw [← hstorages] at h
  apply Mirrors.bind_ok (r₁.check_mirrors hρ.injective)
  intro s hs
  exact (s.1.lower_mirrors hρ s.2 (Program.check_externals h hs)).faulting

/-- The replacement leaves the names of a lowered program that are not automatic. -/
theorem Program.lowerResolved_fixed {r : Program} (h : FixesKept ρ r.storages) {ir : Ir.Program} {T : SymbolTable}
    (hl : r.lowerResolved = .ok (ir, T)) : T.FixedBy ρ ∧ (∀ v ∈ ir.statics, ρ v.name = v.name) ∧
      ∀ f ∈ ir.functions, ρ f.name = f.name := by
  obtain ⟨r₁, hr₁, hl⟩ := CompileError.exists_of_bind hl
  obtain ⟨⟨q, T₁⟩, hcheck, hl⟩ := Except.exists_of_bind hl
  have hstorages : r₁.storages = r.storages := r.labelLoops_storages.of_ok hr₁
  rw [← hstorages] at h
  exact Program.lower_fixed (Program.check_fixed h hcheck) (CompileError.of_ofFaulting hl)

/-- Code with other names becomes the same machine code. -/
theorem Ir.Program.toMachine_mirrors (hρ : Function.Injective ρ) {ir : Ir.Program} {T : SymbolTable}
    (hT : T.FixedBy ρ) (hstatics : ∀ v ∈ ir.statics, ρ v.name = v.name) :
    Mirrors (Prod.map (Machine.Program.renameNames ρ) (Table.rename ρ)) (ir.toMachine T)
      ((ir.rename ρ).toMachine (T.rename ρ)) := by
  apply Mirrors.bind_ok (Machine.Program.ofIr_mirrors hρ hT ir hstatics)
  intro s hs
  have hM : Machine.SymbolTable.FixedBy ρ s.2 := by
    obtain ⟨functions, _, hs⟩ := Except.exists_of_bind hs
    obtain ⟨statics, _, hs⟩ := Except.exists_of_bind hs
    obtain ⟨M, hsymbols, hs⟩ := Except.exists_of_bind hs
    cases hs
    exact Machine.SymbolTable.ofSymbols_fixed hT hsymbols
  apply Mirrors.bind (s.1.assignSlots_mirrors hρ hM)
  intro s'
  exact .bind (s'.1.finish_mirrors hρ s'.2) fun _ => .pure rfl

theorem Machine.Program.renameNames_eq {code : Machine.Program} (h : ∀ f ∈ code.functions, ρ f.name = f.name) :
    code.renameNames ρ = code := by
  have hsame : code.functions.map (Machine.Function.renameName ρ) = code.functions.map id := by
    apply List.map_congr_left
    intro f hf
    rw [Machine.Function.renameName, h f hf]
    rfl
  rw [Machine.Program.renameNames, hsame, List.map_id]

/-- Code with other names gives the same output, unless the code itself is listed. -/
theorem Ir.Program.output_mirrors (hρ : Function.Injective ρ) {ir : Ir.Program} {T : SymbolTable} (hT : T.FixedBy ρ)
    (hstatics : ∀ v ∈ ir.statics, ρ v.name = v.name) (hfunctions : ∀ f ∈ ir.functions, ρ f.name = f.name)
    {options : Options} (hprint : options.printIr = false) :
    Mirrors id (ir.output options T) ((ir.rename ρ).output options (T.rename ρ)) := by
  unfold Ir.Program.output
  rw [hprint]
  apply Mirrors.bind_ok (toMachine_mirrors hρ hT hstatics).faulting
  intro s hs
  have hnames := ((ir.toMachine_names T).of_ok (CompileError.of_ofFaulting hs)).1
  have hcode : s.1.renameNames ρ = s.1 := by
    apply Machine.Program.renameNames_eq
    intro f hf
    obtain ⟨g, hg, hname⟩ := List.mem_map.1 (hnames ▸ List.mem_map_of_mem hf)
    rw [← hname]
    exact hfunctions g hg
  dsimp only [Prod.map]
  rw [hcode]
  exact .refl _

/-- All stages behind resolution do the same to a program with other names, unless intermediate code is listed. -/
theorem compileResolved_mirrors (hρ : SparesTemps ρ) {r : Program} (h : FixesKept ρ r.storages) {options : Options}
    (hprint : options.printIr = false) : Mirrors id (r.lowerResolved >>= fun s => s.1.output options s.2)
      ((r.change (.blind ρ)).lowerResolved >>= fun s => s.1.output options s.2) := by
  apply Mirrors.bind_ok (Program.lowerResolved_mirrors hρ h)
  intro s hs
  obtain ⟨hT, hstatics, hfunctions⟩ := Program.lowerResolved_fixed h hs
  exact Ir.Program.output_mirrors hρ.injective hT hstatics hfunctions hprint

end Stages

/-! ## Compilation -/

theorem sparesTemps_id : SparesTemps id := ⟨Function.injective_id, fun _ => rfl⟩

/-- Intermediate code that is to be listed is listed. -/
theorem output_listing {options : Options} (hprint : options.printIr = true)
    (x : Except CompileError (Ir.Program × SymbolTable)) :
    (x >>= fun s => s.1.output options s.2) = x.map fun s => .irListing s.1.listing := by
  cases x with
  | error e => rfl
  | ok s =>
    show s.1.output options s.2 = _
    rw [Ir.Program.output, hprint]
    rfl

theorem listing_isOk (x : Except CompileError (Ir.Program × SymbolTable)) :
    (∃ output, (x.map fun s => Output.irListing s.1.listing) = .ok output) ↔ ∃ s, x = .ok s := by
  cases x <;> simp [Except.map]

theorem listing_ne_assembly (x : Except CompileError (Ir.Program × SymbolTable)) (text : String) :
    (x.map fun s => Output.irListing s.1.listing) ≠ .ok (.assembly text) := by
  cases x <;> simp [Except.map]

/-- Programs that differ, once resolved, in places and in the names of automatic variables only are both compiled or
both not, and to the same assembly. -/
theorem compile_sameUpTo {p p' r r' : Program} {σ : String → String} (hr : p.resolve = .ok r) (hr' : p'.resolve = .ok r')
    (h : r.SameUpTo σ r') (hdots : ∀ x ∈ p.linkedNames, Dotless x) (hdots' : ∀ x ∈ p'.linkedNames, Dotless x)
    (htmp : "tmp" ∉ p.autoNames) (htmp' : "tmp" ∉ p'.autoNames) (options : Options) :
    ((∃ output, compile options p = .ok output) ↔ ∃ output, compile options p' = .ok output) ∧
      ∀ text, compile options p = .ok (.assembly text) ↔ compile options p' = .ok (.assembly text) := by
  obtain ⟨ρ, hρ, hkept, hblind⟩ := h.exists_spares hr hr' hdots hdots' htmp htmp'
  have hkept' : FixesKept id r'.storages := fun _ _ _ => rfl
  rw [compile_of_resolve hr, compile_of_resolve hr']
  cases hprint : options.printIr with
  | true =>
    -- The listing of intermediate code shows the names, but it is no assembly.
    have hfront := (Program.lowerResolved_mirrors hρ hkept).isOk_iff
    have hfront' := (Program.lowerResolved_mirrors sparesTemps_id hkept').isOk_iff
    rw [hblind] at hfront
    rw [output_listing hprint, output_listing hprint, listing_isOk, listing_isOk]
    refine ⟨hfront.trans hfront'.symm, ?_⟩
    intro text
    exact iff_of_false (listing_ne_assembly _ text) (listing_ne_assembly _ text)
  | false =>
    have hall := compileResolved_mirrors hρ hkept hprint
    have hall' := compileResolved_mirrors sparesTemps_id hkept' hprint
    rw [hblind] at hall
    exact ⟨hall.isOk_iff.trans hall'.isOk_iff.symm, fun text => hall.ok_iff hall' (.assembly text)⟩

/-- A function that returns the sum of the numbers below its parameter, with the names of its variables left open. -/
def sumsBelow (bound total step : String) (span : Span) : Program :=
  ⟨[.fn ⟨⟨"f", span⟩, [⟨⟨bound, span⟩, .long⟩], .long, true, false⟩
    (some [.var ⟨⟨total, span⟩, .long, some (.long { span } 0), none⟩,
      .stmt (.loop (some ⟨step, span⟩) (.range { span } (.long { span } 0) (.var { span } bound))
        [.stmt (.eval (.assign { span } (.var { span } total)
          (.binary { span } (.strict (.arith .add)) (.var { span } total) (.var { span } step))))] none),
      .stmt (.ret (some (.var { span } total)) span)])]⟩

/-- The names of the variables of one such function for those of another. The loop variable of the other one hides its
parameter. -/
def hidesBound : String → String
  | "n.0" => "x.0"
  | "sum.1" => "s.1"
  | "i.2" => "x.2"
  | x => x

/-- Both functions are compiled to one text. -/
theorem sumsBelow_text : ∃ text, compile {} (sumsBelow "n" "sum" "i" .nowhere) = .ok (.assembly text) ∧
    compile {} (sumsBelow "x" "s" "x" ⟨1, 2⟩) = .ok (.assembly text) := by
  have hcompile : ∃ text, compile {} (sumsBelow "n" "sum" "i" .nowhere) = .ok (.assembly text) := ⟨_, rfl⟩
  obtain ⟨text, htext⟩ := hcompile
  obtain ⟨r, hr⟩ : ∃ r, (sumsBelow "n" "sum" "i" .nowhere).resolve = .ok r := ⟨_, rfl⟩
  obtain ⟨r', hr'⟩ : ∃ r, (sumsBelow "x" "s" "x" ⟨1, 2⟩).resolve = .ok r := ⟨_, rfl⟩
  have hothers : ∀ x, x ∉ r.autoNames → hidesBound x = x := by
    intro x hx
    cases hr
    unfold hidesBound
    split
    case h_4 => rfl
    all_goals exact absurd (by decide) hx
  have hsame : r.SameUpTo hidesBound r' := by
    cases hr
    cases hr'
    exact ⟨by decide, hothers, rfl⟩
  obtain ⟨_, hiff⟩ := compile_sameUpTo hr hr' hsame (by decide) (by decide) (by decide) (by decide) {}
  exact ⟨text, htext, (hiff text).1 htext⟩

end Khel
