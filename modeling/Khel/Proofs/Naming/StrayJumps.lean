import Khel.Proofs.Naming.Labelled

/-!
# Stray jumps

A jump that no loop is around is stray. Labelling rejects a program for its first stray jump, in the order of the text,
and for nothing else. What it makes of the other programs depends on nothing that they carry as ids already, and so a
second labelling finds everything as it should be.

* `Program.strays`: the stray jumps of a program, each as the complaint about it.
* `Program.unlabelled`: the program without ids.
* `Program.labelLoops_exact`: what labelling does to every program.

A function inside a function is never looked into, neither here nor by labelling: resolution refuses it.
-/

namespace Khel

/-! ## Jumps without a loop -/

mutual
/-- The stray jumps of a statement, which itself may stand in a loop. -/
def Stmt.strays (inLoop : Bool) : Stmt → List Rejection
  | .ifThen _ s => s.strays inLoop
  | .ifElse _ s t => s.strays inLoop ++ t.strays inLoop
  | .block items => itemsStrays inLoop items
  | .whileLoop _ body _ => itemsStrays true body
  | .loop _ _ body _ => itemsStrays true body
  | .leave span _ => if inLoop then [] else [⟨.leaveOutsideLoop, span⟩]
  | .next span _ => if inLoop then [] else [⟨.nextOutsideLoop, span⟩]
  | .eval _ | .ret .. | .skip => []

/-- The stray jumps of the items of a block. -/
def itemsStrays (inLoop : Bool) : List Item → List Rejection
  | [] => []
  | .stmt s :: rest => s.strays inLoop ++ itemsStrays inLoop rest
  | .var _ :: rest => itemsStrays inLoop rest
  | .fn .. :: rest => itemsStrays inLoop rest
end

/-- The stray jumps of a declaration. -/
def Decl.strays : Decl → List Rejection
  | .fn _ (some body) => itemsStrays false body
  | .fn _ none | .var _ => []

/-- The stray jumps of a program, in the order of the text. -/
def Program.strays (p : Program) : List Rejection := p.decls.flatMap Decl.strays

/-! ## Programs without ids -/

mutual
/-- The statement without the ids of loops. -/
def Stmt.unlabelled : Stmt → Stmt
  | .eval e => .eval e
  | .ret value span => .ret value span
  | .ifThen c s => .ifThen c s.unlabelled
  | .ifElse c s t => .ifElse c s.unlabelled t.unlabelled
  | .block items => .block (itemsUnlabelled items)
  | .whileLoop c body _ => .whileLoop c (itemsUnlabelled body) none
  | .loop var control body _ => .loop var control (itemsUnlabelled body) none
  | .leave span _ => .leave span none
  | .next span _ => .next span none
  | .skip => .skip

/-- The items of a block without the ids of loops. -/
def itemsUnlabelled : List Item → List Item
  | [] => []
  | .stmt s :: rest => .stmt s.unlabelled :: itemsUnlabelled rest
  | .var d :: rest => .var d :: itemsUnlabelled rest
  | .fn head body :: rest => .fn head body :: itemsUnlabelled rest
end

/-- The declaration without the ids of loops. -/
def Decl.unlabelled : Decl → Decl
  | .fn head body => .fn head (body.map itemsUnlabelled)
  | .var d => .var d

/-- The program without the ids of loops. -/
def Program.unlabelled (p : Program) : Program := ⟨p.decls.map Decl.unlabelled⟩

mutual
/-- Labelling does not look at ids. -/
theorem Stmt.labelLoops_unlabelled : ∀ (current : Option String) (s : Stmt),
    s.unlabelled.labelLoops current = s.labelLoops current
  | _, .eval _ | _, .ret .. | _, .skip => rfl
  | current, .ifThen c s => by
    rw [Stmt.unlabelled, Stmt.labelLoops, Stmt.labelLoops, s.labelLoops_unlabelled current]
  | current, .ifElse c s t => by
    rw [Stmt.unlabelled, Stmt.labelLoops, Stmt.labelLoops, s.labelLoops_unlabelled current,
      t.labelLoops_unlabelled current]
  | current, .block items => by
    rw [Stmt.unlabelled, Stmt.labelLoops, Stmt.labelLoops, labelItems_unlabelled current items]
  | _, .whileLoop c body _ => by
    rw [Stmt.unlabelled, Stmt.labelLoops, Stmt.labelLoops]
    simp only [fun id => labelItems_unlabelled (some id) body]
  | _, .loop var control body _ => by
    rw [Stmt.unlabelled, Stmt.labelLoops, Stmt.labelLoops]
    simp only [fun id => labelItems_unlabelled (some id) body]
  | _, .leave .. | _, .next .. => rfl

theorem labelItems_unlabelled : ∀ (current : Option String) (items : List Item),
    labelItems current (itemsUnlabelled items) = labelItems current items
  | _, [] => rfl
  | current, .stmt s :: rest => by
    rw [itemsUnlabelled, labelItems, labelItems, s.labelLoops_unlabelled current, labelItems_unlabelled current rest]
  | current, .var _ :: rest | current, .fn .. :: rest => by
    rw [itemsUnlabelled, labelItems, labelItems, labelItems_unlabelled current rest]
end

theorem labelDecls_unlabelled : ∀ ds : List Decl, labelDecls (ds.map Decl.unlabelled) = labelDecls ds
  | [] => rfl
  | .fn head (some body) :: rest => by
    rw [List.map_cons, Decl.unlabelled, Option.map_some, labelDecls, labelDecls, labelItems_unlabelled none body,
      labelDecls_unlabelled rest]
  | .fn head none :: rest | .var d :: rest => by
    rw [List.map_cons]
    simp only [Decl.unlabelled, Option.map_none, labelDecls, labelDecls_unlabelled rest]

/-- Programs that differ in ids only are labelled alike. -/
theorem Program.labelLoops_congr {p q : Program} (h : q.unlabelled = p.unlabelled) : q.labelLoops = p.labelLoops := by
  have hdecls : q.decls.map Decl.unlabelled = p.decls.map Decl.unlabelled := congrArg Program.decls h
  rw [Program.labelLoops, Program.labelLoops, ← labelDecls_unlabelled q.decls, hdecls, labelDecls_unlabelled p.decls]

/-! ## Verdicts -/

/-- If there are stray jumps, the step rejects the program for the first of them, and else it ends as `Q` says. -/
def Fresh.Heeds {α : Type} (m : Fresh α) (strays : List Rejection) (Q : α → Prop) : Prop :=
  ∀ n, Ensures m n (fun r => strays.head? = some r) fun a _ => strays = [] ∧ Q a

namespace Fresh.Heeds

variable {α β : Type} {m : Fresh α} {f : α → Fresh β} {xs ys : List Rejection} {Q : α → Prop} {P : β → Prop}

theorem pure {a : α} (h : Q a) : Heeds (Pure.pure a) [] Q := fun _ => Ensures.pure ⟨rfl, h⟩

/-- The first stray jump of a text is that of its first part that has one. -/
theorem bind (hm : Heeds m xs Q) (hf : ∀ a, Q a → Heeds (f a) ys P) : Heeds (m >>= f) (xs ++ ys) P := by
  intro n
  have hn := hm n
  unfold Ensures at hn ⊢
  rw [StateT.run_bind]
  cases hrun : m.run n with
  | ok r =>
    rw [hrun] at hn
    rw [hn.1, List.nil_append]
    exact hf r.1 hn.2 r.2
  | error e =>
    rw [hrun] at hn
    have hfirst : xs.head? = some e := hn
    show (xs ++ ys).head? = some e
    rw [List.head?_append, hfirst, Option.some_or]

/-- What follows a step has no jumps of its own. -/
theorem last {g : α → β} (hm : Heeds m xs Q) (hg : ∀ a, Q a → P (g a)) :
    Heeds (m >>= fun a => Pure.pure (g a)) xs P := by
  have h : Heeds (m >>= fun a => Pure.pure (g a)) (xs ++ []) P := hm.bind fun a ha => pure (hg a ha)
  rwa [List.append_nil] at h

/-- Taking a number strays nowhere. -/
theorem name_bind {stem : String} {f : String → Fresh β} (hf : ∀ id, Heeds (f id) ys P) :
    Heeds (Fresh.name stem >>= f) ys P :=
  fun n => hf (numbered stem n) (n + 1)

theorem reject (complaint : Complaint) (span : Span) : Heeds (Fresh.reject complaint span) [⟨complaint, span⟩] Q :=
  fun _ => Ensures.throw rfl

end Fresh.Heeds

mutual
/-- Labelling stops at the first stray jump, and changes ids only. -/
theorem Stmt.labelLoops_heeds : ∀ (current : Option String) (s : Stmt),
    (s.labelLoops current).Heeds (s.strays current.isSome) fun s' => s'.unlabelled = s.unlabelled
  | _, .eval _ | _, .ret .. | _, .skip => by
    rw [Stmt.labelLoops]
    exact .pure rfl
  | current, .ifThen c s => by
    rw [Stmt.labelLoops]
    exact .last (s.labelLoops_heeds current) fun _ hs => congrArg (Stmt.ifThen c) hs
  | current, .ifElse c s t => by
    rw [Stmt.labelLoops]
    apply Fresh.Heeds.bind (s.labelLoops_heeds current)
    intro s' hs
    exact .last (t.labelLoops_heeds current) fun t' ht => congrArg₂ (Stmt.ifElse c) hs ht
  | current, .block items => by
    rw [Stmt.labelLoops]
    exact .last (labelItems_heeds current items) fun _ hi => congrArg Stmt.block hi
  | _, .whileLoop c body _ => by
    rw [Stmt.labelLoops]
    apply Fresh.Heeds.name_bind
    intro id
    exact .last (labelItems_heeds (some id) body) fun _ hb => congrArg (Stmt.whileLoop c · none) hb
  | _, .loop var control body _ => by
    rw [Stmt.labelLoops]
    apply Fresh.Heeds.name_bind
    intro id
    exact .last (labelItems_heeds (some id) body) fun _ hb => congrArg (Stmt.loop var control · none) hb
  | some id, .leave .. | some id, .next .. => by
    rw [Stmt.labelLoops]
    exact .pure rfl
  | none, .leave .. | none, .next .. => by
    rw [Stmt.labelLoops]
    exact .reject _ _

theorem labelItems_heeds : ∀ (current : Option String) (items : List Item),
    (labelItems current items).Heeds (itemsStrays current.isSome items) fun items' =>
      itemsUnlabelled items' = itemsUnlabelled items
  | _, [] => by
    rw [labelItems]
    exact .pure rfl
  | current, .stmt s :: rest => by
    rw [labelItems]
    apply Fresh.Heeds.bind (s.labelLoops_heeds current)
    intro s' hs
    exact .last (labelItems_heeds current rest) fun _ hr => congrArg₂ (fun s r => Item.stmt s :: r) hs hr
  | current, .var d :: rest => by
    rw [labelItems]
    exact .last (labelItems_heeds current rest) fun _ hr => congrArg (Item.var d :: ·) hr
  | current, .fn head body :: rest => by
    rw [labelItems]
    exact .last (labelItems_heeds current rest) fun _ hr => congrArg (Item.fn head body :: ·) hr
end

theorem labelDecls_heeds : ∀ ds : List Decl, (labelDecls ds).Heeds (ds.flatMap Decl.strays) fun ds' =>
    ds'.map Decl.unlabelled = ds.map Decl.unlabelled
  | [] => by
    rw [labelDecls]
    exact .pure rfl
  | .fn head (some body) :: rest => by
    rw [labelDecls]
    apply Fresh.Heeds.bind (labelItems_heeds none body)
    intro body' hb
    apply Fresh.Heeds.last (labelDecls_heeds rest)
    intro rest' hr
    exact congrArg₂ (fun b r => Decl.fn head (some b) :: r) hb hr
  | .fn head none :: rest => by
    rw [labelDecls]
    exact .last (labelDecls_heeds rest) fun _ hr => congrArg (Decl.fn head none :: ·) hr
  | .var d :: rest => by
    rw [labelDecls]
    exact .last (labelDecls_heeds rest) fun _ hr => congrArg (Decl.var d :: ·) hr

/-! ## Programs -/

/-- The stems of the ids that the loops of a program get, in the order in which the loops start. -/
def Program.loopStems (p : Program) : List String := p.decls.flatMap Decl.loopStems

/-- The ids of the loops of a program, in the order in which the loops start. -/
def Program.loopIds (p : Program) : List String := p.decls.flatMap Decl.loopIds

/-- Labelling accepts a program if it has no stray jump, and otherwise rejects it for the first one. In a program that it
accepts, every loop gets an id, and every jump that of the innermost loop around it. The ids are pairwise different and
numbered from zero, in the order in which the loops start. Nothing else changes, and labelling once more changes nothing
at all. -/
theorem Program.labelLoops_exact (p : Program) :
    (p.strays = [] ∧ ∃ q, p.labelLoops = .ok q ∧ (∀ d ∈ q.decls, d.Labelled) ∧
      q.loopIds = numberFrom 0 p.loopStems ∧ q.loopIds.Nodup ∧ q.unlabelled = p.unlabelled ∧ q.labelLoops = .ok q) ∨
    ∃ r, p.strays.head? = some r ∧ p.labelLoops = .error r := by
  have hheeds := labelDecls_heeds p.decls 0
  cases hrun : (labelDecls p.decls).run 0 with
  | error e =>
    rw [Ensures, hrun] at hheeds
    have herror : p.labelLoops = .error e := by
      rw [Program.labelLoops, StateT.run'_eq, hrun]
      rfl
    exact .inr ⟨e, hheeds, herror⟩
  | ok r =>
    obtain ⟨ds, n⟩ := r
    obtain ⟨hstrays, hsame⟩ := hheeds.of_ok hrun
    obtain ⟨hnumbers, hlabelled, _⟩ := (labelDecls_ensures p.decls 0).of_ok hrun
    have hok : p.labelLoops = .ok ⟨ds⟩ := by
      rw [Program.labelLoops, StateT.run'_eq, hrun]
      rfl
    have hids : (Program.mk ds).loopIds = numberFrom 0 p.loopStems := hnumbers.names
    have hunlabelled : (Program.mk ds).unlabelled = p.unlabelled := congrArg Program.mk hsame
    refine .inl ⟨hstrays, ⟨ds⟩, hok, hlabelled, hids, ?_, hunlabelled, ?_⟩
    · rw [hids]
      exact nodup_numberFrom 0 _
    · rw [Program.labelLoops_congr hunlabelled, hok]

/-- The jump in the inner of two loops belongs to it, and the one behind it to the outer loop. -/
example : (Program.mk [.fn ⟨⟨"f", .nowhere⟩, [], .int, true, false⟩ (some
      [.stmt (.whileLoop (.int {} 1) [.stmt (.loop none (.int {} 1) [.stmt (.leave .nowhere (some "stale"))] none),
        .stmt (.next .nowhere none)] none)])]).labelLoops =
    .ok ⟨[.fn ⟨⟨"f", .nowhere⟩, [], .int, true, false⟩ (some
      [.stmt (.whileLoop (.int {} 1) [.stmt (.loop none (.int {} 1) [.stmt (.leave .nowhere (some "loop.1"))]
        (some "loop.1")), .stmt (.next .nowhere (some "while.0"))] (some "while.0"))])]⟩ := rfl

end Khel
