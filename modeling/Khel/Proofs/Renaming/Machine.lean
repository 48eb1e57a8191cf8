import Khel.Proofs.Machine.Slots
import Khel.Proofs.Renaming.Fixed
import Khel.Proofs.Renaming.Lowering

/-!
# Machine code without names of variables

Selection turns variables into pseudos, and slot assignment turns pseudos into slots. The slots depend on the order in
which variables appear and on their widths, so from here on code with other names is the same code. Only what is called
and what lies in the data section keeps a name; the replacement must leave these names.

* `Machine.Program.ofIr_mirrors`: selected code with other names has other pseudos.
* `Machine.Program.assignSlots_mirrors`: placed code with other names is the same code.
-/

namespace Khel

variable {ρ : String → String}

namespace Machine

/-! ## Machine code with other pseudos -/

/-- Replaces the name of a pseudo. -/
def Operand.rename (ρ : String → String) : Operand → Operand
  | .pseudo x => .pseudo (ρ x)
  | o => o

/-- Replaces the names of pseudos in a piece of code. -/
def renamePseudos (ρ : String → String) (code : List Instr) : List Instr :=
  code.map (Instr.relocate (Operand.rename ρ))

/-- Replaces the name of a function. -/
def Function.renameName (ρ : String → String) (f : Function) : Function := { f with name := ρ f.name }

/-- Replaces the name of a function and those of its pseudos. -/
def Function.rename (ρ : String → String) (f : Function) : Function :=
  { f with name := ρ f.name, code := renamePseudos ρ f.code }

/-- Replaces the names of functions. -/
def Program.renameNames (ρ : String → String) (p : Program) : Program :=
  { p with functions := p.functions.map (Function.renameName ρ) }

/-- Replaces the names of functions and pseudos. -/
def Program.rename (ρ : String → String) (p : Program) : Program :=
  { p with functions := p.functions.map (Function.rename ρ) }

@[simp] theorem renamePseudos_append (a b : List Instr) :
    renamePseudos ρ (a ++ b) = renamePseudos ρ a ++ renamePseudos ρ b := List.map_append

@[simp] theorem renamePseudos_cons (i : Instr) (code : List Instr) :
    renamePseudos ρ (i :: code) = i.relocate (Operand.rename ρ) :: renamePseudos ρ code := rfl

@[simp] theorem renamePseudos_nil : renamePseudos ρ [] = [] := rfl

@[simp] theorem Operand.rename_pseudo (x : String) : (Operand.pseudo x).rename ρ = .pseudo (ρ x) := rfl

@[simp] theorem Operand.rename_reg (r : Register) : (Operand.reg r).rename ρ = .reg r := rfl

theorem Operand.ofValue_rename (v : Ir.Value) : Operand.ofValue (v.rename ρ) = (Operand.ofValue v).rename ρ := by
  cases v <;> rfl

@[simp] theorem Operand.rename_ofParam (index : Nat) : (Operand.ofParam index).rename ρ = Operand.ofParam index := by
  unfold Operand.ofParam
  split <;> rfl

theorem renamePseudos_adjustStack (op : BinOp) (bytes : Nat) :
    renamePseudos ρ (adjustStack op bytes) = adjustStack op bytes := by
  unfold adjustStack
  split <;> rfl

theorem renamePseudos_callCode (callee : String) (onStack : Nat) (moves pushes : List Instr) :
    renamePseudos ρ (callCode callee onStack moves pushes) =
      callCode callee onStack (renamePseudos ρ moves) (renamePseudos ρ pushes) := by
  have hcall : (Instr.call callee).relocate (Operand.rename ρ) = .call callee := rfl
  simp [callCode, renamePseudos_adjustStack, hcall]

/-! ## Selection -/

section Select

variable {T : Khel.SymbolTable}

theorem Width.ofVar_mirrors (hρ : Function.Injective ρ) (T : Khel.SymbolTable) (x : String) :
    Mirrors id (Width.ofVar T x) (Width.ofVar (T.rename ρ) (ρ x)) := by
  unfold Width.ofVar
  rw [Table.get?_rename hρ]
  cases T.get? x with
  | some s => exact .refl _
  | none => exact .throw _ _

theorem Width.ofValue_mirrors (hρ : Function.Injective ρ) (T : Khel.SymbolTable) (v : Ir.Value) :
    Mirrors id (Width.ofValue T v) (Width.ofValue (T.rename ρ) (v.rename ρ)) := by
  cases v with
  | var x => exact Width.ofVar_mirrors hρ T x
  | int _ | long _ | str _ => exact .pure rfl

theorem selectUnary_mirrors (hρ : Function.Injective ρ) (op : UnaryOp) (src dst : Ir.Value) :
    Mirrors (renamePseudos ρ) (selectUnary T op src dst)
      (selectUnary (T.rename ρ) op (src.rename ρ) (dst.rename ρ)) := by
  unfold selectUnary
  rw [Operand.ofValue_rename, Operand.ofValue_rename]
  apply Mirrors.bind (Width.ofValue_mirrors hρ T src)
  intro w
  apply Mirrors.bind (Width.ofValue_mirrors hρ T dst)
  intro w'
  cases op <;> exact .pure rfl

theorem selectBinary_mirrors (hρ : Function.Injective ρ) (op : StrictOp) (l r dst : Ir.Value) :
    Mirrors (renamePseudos ρ) (selectBinary T op l r dst)
      (selectBinary (T.rename ρ) op (l.rename ρ) (r.rename ρ) (dst.rename ρ)) := by
  unfold selectBinary
  rw [Operand.ofValue_rename, Operand.ofValue_rename, Operand.ofValue_rename]
  apply Mirrors.bind (Width.ofValue_mirrors hρ T l)
  intro w
  cases op with
  | arith op => cases op <;> exact .pure rfl
  | compare op => exact .bind (Width.ofValue_mirrors hρ T dst) fun _ => .pure rfl

theorem selectParams_mirrors (hρ : Function.Injective ρ) (xs : List String) (index : Nat) :
    Mirrors (renamePseudos ρ) (selectParams T index xs) (selectParams (T.rename ρ) index (xs.map ρ)) := by
  induction xs generalizing index with
  | nil => exact .pure rfl
  | cons x xs ih =>
    apply Mirrors.bind (Width.ofVar_mirrors hρ T x)
    intro w
    apply Mirrors.bind (ih (index + 1))
    intro code
    exact .pure (by simp)

theorem selectRegisterArgs_mirrors (hρ : Function.Injective ρ) (vs : List Ir.Value) (index : Nat) :
    Mirrors (renamePseudos ρ) (selectRegisterArgs T index vs)
      (selectRegisterArgs (T.rename ρ) index (vs.map (Ir.Value.rename ρ))) := by
  induction vs generalizing index with
  | nil => exact .pure rfl
  | cons v vs ih =>
    apply Mirrors.bind (Width.ofValue_mirrors hρ T v)
    intro w
    apply Mirrors.bind (ih (index + 1))
    intro code
    exact .pure (by simp [Operand.ofValue_rename])

theorem selectPush_mirrors (hρ : Function.Injective ρ) (v : Ir.Value) :
    Mirrors (renamePseudos ρ) (selectPush T v) (selectPush (T.rename ρ) (v.rename ρ)) := by
  apply Mirrors.bind (Width.ofValue_mirrors hρ T v)
  intro w
  cases v with
  | int _ | long _ | str _ => exact .pure rfl
  | var x => cases w <;> exact .pure rfl

theorem selectPushes_mirrors (hρ : Function.Injective ρ) (vs : List Ir.Value) :
    Mirrors (renamePseudos ρ) (selectPushes T vs) (selectPushes (T.rename ρ) (vs.map (Ir.Value.rename ρ))) := by
  induction vs with
  | nil => exact .pure rfl
  | cons v vs ih =>
    apply Mirrors.bind (selectPush_mirrors hρ v)
    intro push
    exact .bind ih fun _ => .pure (renamePseudos_append ..).symm

theorem selectCall_mirrors (hρ : Function.Injective ρ) (hT : T.FixedBy ρ) (f : String) (args : List Ir.Value)
    (dst : Ir.Value) : Mirrors (renamePseudos ρ) (selectCall T f args dst)
      (selectCall (T.rename ρ) (ρ f) (args.map (Ir.Value.rename ρ)) (dst.rename ρ)) := by
  unfold selectCall
  rw [Table.get?_rename hρ]
  apply Mirrors.ite
  · intro hf
    dsimp only
    rw [hT.function hf, ← List.map_take, ← List.map_drop, ← List.map_reverse, List.length_map, Operand.ofValue_rename]
    apply Mirrors.bind (selectRegisterArgs_mirrors hρ (args.take 6) 0)
    intro moves
    apply Mirrors.bind (selectPushes_mirrors hρ (args.drop 6).reverse)
    intro pushes
    apply Mirrors.bind (Width.ofValue_mirrors hρ T dst)
    intro w
    exact .pure (by simp [renamePseudos_callCode])
  · exact fun _ => .throw _ _

theorem selectJump_mirrors (hρ : Function.Injective ρ) (cond : Cond) (test : Ir.Value) (target : String) :
    Mirrors (renamePseudos ρ) (selectJump T cond test target)
      (selectJump (T.rename ρ) cond (test.rename ρ) target) := by
  unfold selectJump
  rw [Operand.ofValue_rename]
  exact .bind (Width.ofValue_mirrors hρ T test) fun _ => .pure rfl

theorem select_mirrors (hρ : Function.Injective ρ) (hT : T.FixedBy ρ) (i : Ir.Instr) :
    Mirrors (renamePseudos ρ) (select T i) (select (T.rename ρ) (i.rename ρ)) := by
  cases i with
  | ret v =>
    rw [Ir.Instr.rename, select, select, Operand.ofValue_rename]
    exact .bind (Width.ofValue_mirrors hρ T v) fun _ => .pure rfl
  | signExtend src dst | truncate src dst =>
    rw [Ir.Instr.rename, select, select, Operand.ofValue_rename, Operand.ofValue_rename]
    exact .pure rfl
  | unary op src dst => exact selectUnary_mirrors hρ op src dst
  | binary op l r dst => exact selectBinary_mirrors hρ op l r dst
  | copy src dst =>
    rw [Ir.Instr.rename, select, select, Operand.ofValue_rename, Operand.ofValue_rename]
    exact .bind (Width.ofValue_mirrors hρ T dst) fun _ => .pure rfl
  | jump _ | label _ => exact .pure rfl
  | jumpIfZero test target => exact selectJump_mirrors hρ .e test target
  | jumpIfNotZero test target => exact selectJump_mirrors hρ .ne test target
  | call f args dst => exact selectCall_mirrors hρ hT f args dst

theorem selectAll_mirrors (hρ : Function.Injective ρ) (hT : T.FixedBy ρ) (code : List Ir.Instr) :
    Mirrors (renamePseudos ρ) (selectAll T code) (selectAll (T.rename ρ) (code.map (Ir.Instr.rename ρ))) := by
  induction code with
  | nil => exact .pure rfl
  | cons i is ih =>
    apply Mirrors.bind (select_mirrors hρ hT i)
    intro first
    exact .bind ih fun _ => .pure (renamePseudos_append ..).symm

theorem Function.ofIr_mirrors (hρ : Function.Injective ρ) (hT : T.FixedBy ρ) (f : Ir.Function) :
    Mirrors (Function.rename ρ) (Function.ofIr T f) (Function.ofIr (T.rename ρ) (f.rename ρ)) := by
  apply Mirrors.bind (selectParams_mirrors hρ f.params 0)
  intro fetch
  apply Mirrors.bind (selectAll_mirrors hρ hT f.code)
  intro code
  exact .pure (by simp [Function.rename, Ir.Function.rename])

end Select

theorem StaticVar.ofIr_mirrors {vs : List Ir.StaticVar} (h : ∀ v ∈ vs, ρ v.name = v.name) :
    Mirrors id (vs.mapM StaticVar.ofIr) ((vs.map (Ir.StaticVar.rename ρ)).mapM StaticVar.ofIr) := by
  have hsame : vs.map (Ir.StaticVar.rename ρ) = vs.map id := by
    apply List.map_congr_left
    intro v hv
    rw [Ir.StaticVar.rename, h v hv]
    rfl
  rw [hsame, List.map_id]
  exact .refl _

theorem SymbolTable.ofEntries_mirrors (es : List (String × Khel.Symbol)) :
    Mirrors (List.map fun e => (ρ e.1, e.2)) (SymbolTable.ofEntries es)
      (SymbolTable.ofEntries (es.map fun e => (ρ e.1, e.2))) := by
  induction es with
  | nil => exact .pure rfl
  | cons e rest ih => exact .bind (.refl _) fun _ => .bind ih fun _ => .pure rfl

theorem SymbolTable.ofSymbols_mirrors (T : Khel.SymbolTable) :
    Mirrors (Table.rename ρ) (SymbolTable.ofSymbols T) (SymbolTable.ofSymbols (T.rename ρ)) :=
  .bind (SymbolTable.ofEntries_mirrors T.entries) fun _ => .pure rfl

/-- The code selected for a program with other names has other pseudos. -/
theorem Program.ofIr_mirrors (hρ : Function.Injective ρ) {T : Khel.SymbolTable} (hT : T.FixedBy ρ) (p : Ir.Program)
    (hstatics : ∀ v ∈ p.statics, ρ v.name = v.name) :
    Mirrors (Prod.map (Program.rename ρ) (Table.rename ρ)) (Program.ofIr T p)
      (Program.ofIr (T.rename ρ) (p.rename ρ)) := by
  apply Mirrors.bind (.mapM p.functions fun f _ => Function.ofIr_mirrors hρ hT f)
  intro functions
  apply Mirrors.bind (StaticVar.ofIr_mirrors hstatics)
  intro statics
  exact .bind (SymbolTable.ofSymbols_mirrors T) fun _ => .pure rfl

/-! ## Slots -/

/-- Replaces the names of the variables that have slots. -/
def Frame.rename (ρ : String → String) (frame : Frame) : Frame := { frame with slots := frame.slots.rename ρ }

theorem slotFor_shadows (hρ : Function.Injective ρ) (x : String) (w : Width) :
    Shadows (Frame.rename ρ) id (slotFor x w) (slotFor (ρ x) w) := by
  apply Shadows.get_bind
  intro frame
  have hslot : (frame.rename ρ).slots.get? (ρ x) = frame.slots.get? x := frame.slots.get?_rename hρ x
  dsimp only
  rw [hslot]
  cases frame.slots.get? x with
  | some offset => exact .pure rfl
  | none =>
    apply Shadows.set_bind
    · show Frame.mk _ _ = Frame.mk _ _
      congr 1
      exact frame.slots.set_rename hρ x _
    · exact .pure rfl

/-- The replacement leaves the names of static variables. -/
def SymbolTable.FixedBy (ρ : String → String) (M : SymbolTable) : Prop :=
  ∀ x w, M.get? x = some (.object w true) → ρ x = x

section Place

variable {M : SymbolTable}

theorem Operand.place_shadows (hρ : Function.Injective ρ) (hM : M.FixedBy ρ) (o : Operand) :
    Shadows (Frame.rename ρ) id (o.place M) ((o.rename ρ).place (M.rename ρ)) := by
  cases o with
  | pseudo x =>
    rw [Operand.rename_pseudo, Operand.place, Operand.place, Table.get?_rename hρ]
    split
    · next w hx => exact .pure (by rw [hM x w hx]; rfl)
    · exact .bind (slotFor_shadows hρ x _) fun _ => .pure rfl
    · exact .throw _ _
  | imm _ | reg _ | stack _ | data _ | str _ => exact .pure rfl

theorem Instr.mapOperands_shadows {t : Frame → Frame} {place : Operand → Operand} {f f' : Operand → Placing Operand}
    (h : ∀ o, Shadows t id (f o) (f' (place o))) (i : Instr) :
    Shadows t id (i.mapOperands f) ((i.relocate place).mapOperands f') := by
  cases i with
  | mov _ a b | movsx a b | binary _ _ a b | cmp _ a b =>
    exact .bind (h a) fun _ => .bind (h b) fun _ => .pure rfl
  | unary _ _ a | idiv _ a | setcc _ a | push a => exact .bind (h a) fun _ => .pure rfl
  | cdq _ | jmp _ | jcc _ _ | label _ | call _ | ret => exact .pure rfl

theorem placeAll_shadows (hρ : Function.Injective ρ) (hM : M.FixedBy ρ) (code : List Instr) :
    Shadows (Frame.rename ρ) id (placeAll M code) (placeAll (M.rename ρ) (renamePseudos ρ code)) := by
  induction code with
  | nil => exact .pure rfl
  | cons i is ih =>
    apply Shadows.bind (i.mapOperands_shadows (Operand.place_shadows hρ hM))
    intro i'
    exact .bind ih fun _ => .pure rfl

theorem Function.assignSlots_mirrors (hρ : Function.Injective ρ) (hM : M.FixedBy ρ) (f : Function) :
    Mirrors (Prod.map (Function.renameName ρ) id) (f.assignSlots M) ((f.rename ρ).assignSlots (M.rename ρ)) :=
  .bind (placeAll_shadows hρ hM f.code {}) fun _ => .pure rfl

theorem SymbolTable.setFrameSize_mirrors (hρ : Function.Injective ρ) (f : String) (size : Int) :
    Mirrors (Table.rename ρ) (M.setFrameSize f size) (SymbolTable.setFrameSize (M.rename ρ) (ρ f) size) := by
  unfold SymbolTable.setFrameSize
  rw [Table.get?_rename hρ]
  split
  · exact .throw _ _
  · exact .pure (M.set_rename hρ _ _)
  · exact .throw _ _

theorem assignAllSlots_mirrors (hρ : Function.Injective ρ) : ∀ (fs : List Function) {M : SymbolTable}, M.FixedBy ρ →
    Mirrors (Prod.map (List.map (Function.renameName ρ)) (Table.rename ρ)) (assignAllSlots M fs)
      (assignAllSlots (M.rename ρ) (fs.map (Function.rename ρ)))
  | [], M, _ => .pure rfl
  | f :: fs, M, hM => by
    apply Mirrors.bind (f.assignSlots_mirrors hρ hM)
    intro r
    apply Mirrors.bind_ok (SymbolTable.setFrameSize_mirrors hρ r.1.name r.2)
    intro M₁ hM₁
    have hsame := ((SymbolTable.setFrameSize_lays M r.1.name r.2).of_ok hM₁).1
    have hfixed : SymbolTable.FixedBy ρ M₁ := fun x w hx => hM x w ((hsame x w true).1 hx)
    exact .bind (assignAllSlots_mirrors hρ fs hfixed) fun _ => .pure rfl

/-- Functions with other names are given the same slots. -/
theorem Program.assignSlots_mirrors (hρ : Function.Injective ρ) (hM : M.FixedBy ρ) (p : Program) :
    Mirrors (Prod.map (Program.renameNames ρ) (Table.rename ρ)) (p.assignSlots M)
      ((p.rename ρ).assignSlots (M.rename ρ)) :=
  .bind (assignAllSlots_mirrors hρ p.functions hM) fun _ => .pure rfl

end Place

theorem SymbolTable.ofEntries_static (es : List (String × Khel.Symbol)) :
    Yields (SymbolTable.ofEntries es) (fun _ => True) fun es' => ∀ x w, (x, Symbol.object w true) ∈ es' →
      ∃ s, (x, s) ∈ es ∧ s.role ≠ .automatic := by
  induction es with
  | nil => exact .pure (by simp)
  | cons e rest ih =>
    obtain ⟨y, s⟩ := e
    apply Yields.bind (.of_forall fun s' hs' => hs' : Yields (Symbol.ofSymbol s) (fun _ => True) (Symbol.ofSymbol s = .ok ·))
    intro s' hs'
    apply Yields.bind ih
    intro rest' hrest
    apply Yields.pure
    intro x w hx
    rcases List.mem_cons.1 hx with hx | hx
    · cases hx
      refine ⟨s, List.mem_cons_self, ?_⟩
      intro hrole
      rw [Symbol.ofSymbol, hrole] at hs'
      obtain ⟨w', _, h⟩ := Except.exists_of_bind hs'
      cases h
    · obtain ⟨s, hs, hrole⟩ := hrest x w hx
      exact ⟨s, List.mem_cons_of_mem _ hs, hrole⟩

/-- The replacement leaves the names of static variables in the table of machine code. -/
theorem SymbolTable.ofSymbols_fixed {T : Khel.SymbolTable} (hT : T.FixedBy ρ) {M : SymbolTable}
    (h : SymbolTable.ofSymbols T = .ok M) : M.FixedBy ρ := by
  intro x w hx
  obtain ⟨es, hes, hM⟩ := Except.exists_of_bind h
  cases hM
  obtain ⟨s, hs, hrole⟩ := (SymbolTable.ofEntries_static T.entries).of_ok hes x w (Khel.SymbolTable.mem_of_findEntry hx)
  exact hT (x, s) hs hrole

/-! ## Legal code -/

theorem SymbolTable.frameSize?_rename (hρ : Function.Injective ρ) (M : SymbolTable) (f : String) :
    SymbolTable.frameSize? (M.rename ρ) (ρ f) = M.frameSize? f := by
  unfold SymbolTable.frameSize?
  rw [Table.get?_rename hρ]

theorem Function.finish_mirrors (hρ : Function.Injective ρ) (M : SymbolTable) (f : Function) :
    Mirrors (Function.renameName ρ) (f.finish M) ((f.renameName ρ).finish (M.rename ρ)) := by
  have hsize : SymbolTable.frameSize? (M.rename ρ) (f.renameName ρ).name = M.frameSize? f.name :=
    M.frameSize?_rename hρ f.name
  unfold Function.finish
  rw [hsize]
  cases M.frameSize? f.name with
  | some size => exact .bind (.refl (Machine.legalize (f.allocate size).code)) fun _ => .pure rfl
  | none => exact .throw _ _

theorem Program.finish_mirrors (hρ : Function.Injective ρ) (M : SymbolTable) (p : Program) :
    Mirrors (Program.renameNames ρ) (p.finish M) ((p.renameNames ρ).finish (M.rename ρ)) :=
  .bind (.mapM p.functions fun f _ => f.finish_mirrors hρ M) fun _ => .pure rfl

end Machine

end Khel
