import Mathlib
import RouteAtlas.Procedures.Composition
import RouteAtlas.Procedures.Survey

/-!
# Mounts that stay matched

A composition keeps its mounts as they were last matched to routers. The matching is right as long as it
counts as current: what is added, and what renames routers, ends that, and the next question matches the
mounts anew. So whatever was done before, a question is answered for the graph as it stands, and the
composition need not be put together again to be asked.
-/

namespace RouteAtlas.Procedures

open Router

namespace Composition

section Consistency

/-- A matching that counts as current is that of the graph as it stands. -/
def IsConsistent (c : Composition) : Prop :=
  c.isCurrent = true → c.edges = c.graph.edges

/-- Work answers something about a graph: from any consistent composition of the graph the answer is the
same, and the composition is consistent and of that graph afterwards. -/
def Answers
    {α : Type}
    (work : StateM Composition α)
    (g : Graph)
    (a : α) :
    Prop :=
  ∀ c : Composition, c.graph = g → c.IsConsistent →
    (work.run c).1 = a ∧ (work.run c).2.graph = g ∧ (work.run c).2.IsConsistent

variable {α β : Type} {g : Graph}

theorem isConsistent_of_not_current
    {c : Composition}
    (h : c.isCurrent = false) :
    c.IsConsistent := by
  intro hcurrent
  rw [h] at hcurrent
  cases hcurrent

theorem answers_pure (a : α) : Answers (pure a) g a :=
  fun _ hg hc => ⟨rfl, hg, hc⟩

theorem Answers.bind
    {work : StateM Composition α}
    {next : α → StateM Composition β}
    {a : α}
    {b : β}
    (hwork : Answers work g a)
    (hnext : Answers (next a) g b) :
    Answers (work >>= next) g b := by
  intro c hg hc
  obtain ⟨ha, hg', hc'⟩ := hwork c hg hc
  have hrun : (work >>= next).run c = (next (work.run c).1).run (work.run c).2 := rfl
  rw [hrun, ha]
  exact hnext _ hg' hc'

theorem Answers.map
    {work : StateM Composition α}
    {a : α}
    (h : Answers work g a)
    (f : α → β) :
    Answers (work >>= fun a => pure (f a)) g (f a) :=
  h.bind (answers_pure (f a))

/-- Work that reads the composition, of which it may use the graph only, and goes on. -/
theorem answers_get_bind
    {next : Composition → StateM Composition β}
    {b : β}
    (h : ∀ c : Composition, c.graph = g → Answers (next c) g b) :
    Answers (get >>= next) g b :=
  fun c hg hc => h c hg c hg hc

/-- A list of questions is answered one by one. -/
theorem Answers.mapM
    {γ : Type}
    {ask : γ → StateM Composition α}
    {answer : γ → α}
    (h : ∀ x, Answers (ask x) g (answer x))
    (xs : List γ) :
    Answers (xs.mapM ask) g (xs.map answer) := by
  induction xs with
  | nil => exact answers_pure []
  | cons x rest ih =>
    rw [List.mapM_cons]
    exact (h x).bind (ih.bind (answers_pure _))

theorem Answers.foldlM
    {γ : Type}
    {step : β → γ → StateM Composition β}
    {next : β → γ → β}
    (h : ∀ b x, Answers (step b x) g (next b x))
    (xs : List γ)
    (b : β) :
    Answers (xs.foldlM step b) g (xs.foldl next b) := by
  induction xs generalizing b with
  | nil => exact answers_pure b
  | cons x rest ih =>
    rw [List.foldlM_cons]
    exact (h b x).bind (ih (next b x))

end Consistency

section Questions

variable {g : Graph}

/-- The mounts are matched as the graph has it, whether they were matched before or are matched now. -/
theorem answers_matched : Answers matched g g.edges := by
  rintro c rfl hc
  have hrun : matched.run c =
      if c.isCurrent then (c.edges, c)
      else (c.graph.edges, { c with edges := c.graph.edges, isCurrent := true }) := rfl
  rw [hrun]
  split
  · next hcurrent => exact ⟨hc hcurrent, rfl, hc⟩
  · exact ⟨rfl, rfl, fun _ => rfl⟩

theorem answers_incoming (name : String) : Answers (incoming name) g (g.incoming name) :=
  answers_matched.map fun edges => Graph.incomingAmong edges name

/-- The names of a router that nothing in a graph mounts. -/
def rootNamesIn
    (g : Graph)
    (d : Declaration) :
    List String :=
  if (g.incoming d.name).isEmpty then [d.name, indexName d.name] else []

theorem answers_rootNames (d : Declaration) : Answers (rootNames d) g (rootNamesIn g d) :=
  (answers_incoming d.name).map fun ms => if ms.isEmpty then [d.name, indexName d.name] else []

theorem flatten_rootNamesIn (g : Graph) : (g.routers.map (rootNamesIn g)).flatten = g.roots := by
  rw [← List.flatMap_def]
  rfl

theorem answers_roots : Answers roots g g.roots := by
  rw [← flatten_rootNamesIn]
  have hnames : Answers (g.routers.mapM rootNames) g (g.routers.map (rootNamesIn g)) :=
    Answers.mapM answers_rootNames g.routers
  refine answers_get_bind ?_
  rintro c rfl
  exact hnames.map List.flatten

theorem answers_cycles : Answers cycles g g.cycles :=
  answers_matched.map cyclesAmong

/-- A name is resolved as in the graph, whatever names are open and whatever paths are known. -/
theorem answers_resolveName
    (roots : List String)
    (fuel : Nat)
    (open_ : List String)
    (known : List (String × String))
    (name : String) :
    Answers (resolveName roots fuel open_ known name) g
      (Graph.resolveName g.edges roots fuel open_ known name) := by
  induction fuel generalizing open_ known name with
  | zero => exact answers_pure _
  | succ fuel ih =>
    unfold resolveName Graph.resolveName
    cases entryOf? name known with
    | some path => exact answers_pure _
    | none =>
      by_cases hopen : open_.contains name
      · simp only [hopen, if_true]
        exact answers_pure _
      · simp only [hopen, if_false, Bool.false_eq_true]
        refine (answers_incoming name).bind ?_
        cases hin : g.incoming name with
        | nil =>
          have hin' : Graph.incomingAmong g.edges name = [] := hin
          simp only [hin']
          exact answers_pure _
        | cons mount rest =>
          have hin' : Graph.incomingAmong g.edges name = mount :: rest := hin
          simp only [hin']
          exact (ih (name :: open_) known mount.parent).bind (answers_pure _)

theorem answers_resolvePaths : Answers resolvePaths g g.resolvePaths := by
  refine answers_roots.bind (answers_get_bind ?_)
  rintro c rfl
  refine Answers.foldlM (fun known d => ?_) c.graph.routers []
  exact (answers_resolveName c.graph.roots _ [] known d.name).map Prod.snd

end Questions

section Operations

/-- What an operation gives back if the graph is all that it depends on. -/
def Operation.replyFor
    (g : Graph) :
    Operation → Reply
  | .add _ => .added
  | .apply procedures =>
    .applied g.resolvePaths (procedures.map (Procedure.withPath g.resolvePaths))
  | .incoming name => .mounts (g.incoming name)
  | .roots => .names g.roots
  | .cycles => .cycles g.cycles
  | .resolvePaths => .paths g.resolvePaths

/-- The graph that an operation leaves. -/
def Operation.graphFor
    (g : Graph) :
    Operation → Graph
  | .add a => a.addTo g
  | .apply _ => g.withPaths g.resolvePaths
  | .incoming _ | .roots | .cycles | .resolvePaths => g

variable {c : Composition}

theorem Answers.run
    {α : Type}
    {work : StateM Composition α}
    {a : α}
    (h : Answers work c.graph a)
    (hc : c.IsConsistent) :
    (work.run c).1 = a ∧ (work.run c).2.graph = c.graph ∧ (work.run c).2.IsConsistent :=
  h c rfl hc

/-- Renaming goes by the paths of the graph as it stands, and ends the matching. -/
theorem run_apply
    (hc : c.IsConsistent)
    (procedures : List Procedure) :
    ((apply procedures).run c).1 =
        (c.graph.resolvePaths, procedures.map (Procedure.withPath c.graph.resolvePaths)) ∧
      ((apply procedures).run c).2.graph = c.graph.withPaths c.graph.resolvePaths ∧
      ((apply procedures).run c).2.isCurrent = false := by
  obtain ⟨hpaths, hgraph, -⟩ := answers_resolvePaths.run hc
  have hrun : (apply procedures).run c =
      (((resolvePaths.run c).1, procedures.map (Procedure.withPath (resolvePaths.run c).1)),
        { (resolvePaths.run c).2 with
          graph := (resolvePaths.run c).2.graph.withPaths (resolvePaths.run c).1,
          isCurrent := false }) := rfl
  rw [hrun, hpaths, hgraph]
  exact ⟨rfl, rfl, rfl⟩

/-- From a consistent composition an operation gives back what the graph has, and leaves a consistent
composition. -/
theorem run_perform
    (hc : c.IsConsistent)
    (o : Operation) :
    (o.perform.run c).1 = o.replyFor c.graph ∧
      (o.perform.run c).2.graph = o.graphFor c.graph ∧
      (o.perform.run c).2.IsConsistent := by
  cases o with
  | add a => exact ⟨rfl, rfl, isConsistent_of_not_current rfl⟩
  | apply procedures =>
    obtain ⟨hreply, hgraph, hcurrent⟩ := run_apply hc procedures
    have hrun : ((Operation.apply procedures).perform.run c) =
        (.applied ((apply procedures).run c).1.1 ((apply procedures).run c).1.2,
          ((apply procedures).run c).2) := rfl
    rw [hrun, hreply]
    exact ⟨rfl, hgraph, isConsistent_of_not_current hcurrent⟩
  | incoming name => exact ((answers_incoming name).map Reply.mounts).run hc
  | roots => exact (answers_roots.map Reply.names).run hc
  | cycles => exact (answers_cycles.map Reply.cycles).run hc
  | resolvePaths => exact (answers_resolvePaths.map Reply.paths).run hc

/-- Whatever is done one after the other, the composition is consistent. -/
theorem isConsistent_after (operations : List Operation) : (after operations).IsConsistent := by
  have hstart : empty.IsConsistent := isConsistent_of_not_current rfl
  unfold after
  generalize empty = c at hstart
  induction operations generalizing c with
  | nil => exact hstart
  | cons o rest ih => exact ih _ (run_perform hstart o).2.2

end Operations

section Anew

/-- The router that is added, if it is a router. -/
def Addition.router? : Addition → Option Declaration
  | .router d => some d
  | .mount _ => none

/-- The mount that is added, if it is a mount. -/
def Addition.mount? : Addition → Option Mount
  | .router _ => none
  | .mount m => some m

/-- Additions, however they are interleaved, bring their routers and their mounts in their order. -/
theorem foldl_addTo
    (adds : List Addition)
    (g : Graph) :
    adds.foldl Addition.addTo g =
      ⟨g.routers ++ adds.filterMap Addition.router?, g.mounts ++ adds.filterMap Addition.mount?⟩ := by
  induction adds generalizing g with
  | nil => simp
  | cons a rest ih =>
    rw [List.foldl_cons, ih]
    cases a with
    | router d => simp [Addition.addTo, List.filterMap_cons, Addition.router?, Addition.mount?]
    | mount m => simp [Addition.addTo, List.filterMap_cons, Addition.router?, Addition.mount?]

/-- The composition to which some routers and mounts have been added and nothing else has been done. -/
def composed (adds : List Addition) : Composition :=
  after (adds.map Operation.add)

theorem graph_composed (adds : List Addition) :
    (composed adds).graph =
      ⟨adds.filterMap Addition.router?, adds.filterMap Addition.mount?⟩ := by
  have hfold : ∀ c : Composition,
      ((adds.map Operation.add).foldl (fun c o => (o.perform.run c).2) c).graph =
        adds.foldl Addition.addTo c.graph := by
    induction adds with
    | nil => exact fun _ => rfl
    | cons a rest ih =>
      intro c
      rw [List.map_cons, List.foldl_cons, List.foldl_cons, ih]
      rfl
  rw [composed, after, hfold, foldl_addTo]
  simp [empty, Graph.empty]

theorem isConsistent_composed (adds : List Addition) : (composed adds).IsConsistent :=
  isConsistent_after _

/-- The composition that is put together from nothing to have the routers and the mounts of a graph. -/
def anew (g : Graph) : Composition :=
  composed (g.routers.map Addition.router ++ g.mounts.map Addition.mount)

@[simp] theorem graph_anew (g : Graph) : (anew g).graph = g := by
  rw [anew, graph_composed]
  simp [List.filterMap_append, List.filterMap_map, Function.comp_def, Addition.router?,
    Addition.mount?]

theorem isConsistent_anew (g : Graph) : (anew g).IsConsistent :=
  isConsistent_composed _

end Anew

section Transparency

/-- A name as it is rewritten by some paths: to its path if it has one that is not empty. -/
inductive Rewritten (paths : List (String × String)) : String → String → Prop
  | toPath
      {name path : String}
      (hentry : entryOf? name paths = some path)
      (hpath : path ≠ "") :
      Rewritten paths name path
  | ofRoot
      {name : String}
      (hentry : entryOf? name paths = some "") :
      Rewritten paths name name
  | unknown
      {name : String}
      (hentry : entryOf? name paths = none) :
      Rewritten paths name name

theorem rewritten_renamed
    (paths : List (String × String))
    (name : String) :
    Rewritten paths name (Graph.renamed paths name) := by
  unfold Graph.renamed
  cases hentry : entryOf? name paths with
  | none => exact .unknown hentry
  | some path =>
    by_cases hpath : path = ""
    · subst hpath
      exact .ofRoot hentry
    · simpa [hpath] using Rewritten.toPath hentry hpath

/-- A survey is renamed as a composition of its graph is, with the procedures that were found. -/
theorem withPaths_eq_apply
    {c : Composition}
    (hc : c.IsConsistent)
    {s : Survey}
    (hs : s.graph = c.graph) :
    s.withPaths =
      ⟨((apply s.procedures).run c).1.2, ((apply s.procedures).run c).2.graph⟩ := by
  obtain ⟨hreply, hgraph, -⟩ := run_apply hc s.procedures
  rw [hreply, hgraph, Survey.withPaths, hs]

/-- Whatever has been done with a composition, everything that may be done next gives back what it gives
back for a composition that is put together anew from the routers, as they are named now, and the
mounts, and leaves the same graph: the answers are those that the graph itself has. Renaming rewrites every
router and every given procedure once, by the path of the name that it had before, and changes nothing
else. So a survey of the graph with these procedures is renamed in the same way. -/
theorem perform_after
    (before : List Operation) :
    (∀ o : Operation,
      (o.perform.run (after before)).1 = (o.perform.run (anew (after before).graph)).1 ∧
        (o.perform.run (after before)).2.graph =
          (o.perform.run (anew (after before).graph)).2.graph ∧
        (o.perform.run (after before)).1 = o.replyFor (after before).graph ∧
        (o.perform.run (after before)).2.graph = o.graphFor (after before).graph) ∧
      ∀ procedures : List Procedure,
        let paths := (resolvePaths.run (after before)).1
        let applied := (apply procedures).run (after before)
        applied.1.1 = paths ∧
          List.Forall₂
            (fun p p' => ∃ router, Rewritten paths p.router router ∧ p' = { p with router := router })
            procedures applied.1.2 ∧
          List.Forall₂
            (fun d d' => ∃ name, Rewritten paths d.name name ∧ d' = { d with name := name })
            (after before).graph.routers applied.2.graph.routers ∧
          applied.2.graph.mounts = (after before).graph.mounts ∧
          Survey.withPaths ⟨procedures, (after before).graph⟩ = ⟨applied.1.2, applied.2.graph⟩ := by
  have hc := isConsistent_after before
  refine ⟨fun o => ?_, fun procedures => ?_⟩
  · obtain ⟨hreply, hgraph, -⟩ := run_perform hc o
    obtain ⟨hreply', hgraph', -⟩ := run_perform (isConsistent_anew (after before).graph) o
    rw [graph_anew] at hreply' hgraph'
    exact ⟨hreply.trans hreply'.symm, hgraph.trans hgraph'.symm, hreply, hgraph⟩
  · obtain ⟨hpaths, -, -⟩ := answers_resolvePaths.run hc
    obtain ⟨hreply, hgraph, -⟩ := run_apply hc procedures
    intro paths applied
    have hsurvey : Survey.withPaths ⟨procedures, (after before).graph⟩ =
        ⟨applied.1.2, applied.2.graph⟩ := withPaths_eq_apply hc rfl
    have hpaths : paths = (after before).graph.resolvePaths := hpaths
    have hreply : applied.1 = (paths, procedures.map (Procedure.withPath paths)) := by
      rw [hpaths]
      exact hreply
    have hgraph : applied.2.graph = (after before).graph.withPaths paths := by
      rw [hpaths]
      exact hgraph
    refine ⟨by rw [hreply], ?_, ?_, by rw [hgraph, Graph.withPaths], hsurvey⟩
    · rw [hreply, List.forall₂_map_right_iff, List.forall₂_same]
      exact fun p _ => ⟨_, rewritten_renamed paths p.router, rfl⟩
    · rw [hgraph, Graph.withPaths, List.forall₂_map_right_iff, List.forall₂_same]
      exact fun d _ => ⟨_, rewritten_renamed paths d.name, rfl⟩

/-- The new name of one router is the old name of another, which is not renamed with it. -/
example :
    ((apply []).run (anew
      ⟨[⟨"app", "app.ts", 1, 4⟩, ⟨"a", "a.ts", 1, 3⟩, ⟨"b", "b.ts", 1, 3⟩],
        [⟨"app", "b", "aRouter"⟩, ⟨"app", "c", "bRouter"⟩]⟩)).2.graph.routers.map Declaration.name =
      ["app", "b", "c"] := by
  decide +kernel

end Transparency

end Composition

end RouteAtlas.Procedures
