import Mathlib
import RouteAtlas.Files.Tree

/-!
# Resolved paths

Following the links of a path to something that exists leads to a list of names that is reached from
the root through directories alone. The path is resolved to this place, although links are followed in
another manner there: the target of each link by itself, and a link that is being followed not again.
For a link that leads back to itself leads to nothing that exists.

A resolved path has no other links than these. So looking a path up before and after it is resolved finds
the same entry, and a place that is reached is its own resolved path.
-/

namespace RouteAtlas.Files.Tree

section Places

/-- A list of names that leads from the root through directories to an entry that is no link. -/
inductive Reached (t : Tree) : List String → Prop
  | root :
      Reached t []
  | directory
      {place : List String}
      {name : String}
      {entries : List (String × Entry)}
      (hplace : Reached t place)
      (hname : name ≠ "..")
      (hentry : t.root.get? (place ++ [name]) = some (.directory entries)) :
      Reached t (place ++ [name])
  | file
      {place : List String}
      {name : String}
      {content : Content}
      (hplace : Reached t place)
      (hname : name ≠ "..")
      (hentry : t.root.get? (place ++ [name]) = some (.file content)) :
      Reached t (place ++ [name])

variable {t : Tree}

theorem Reached.dropLast
    {place : List String}
    (h : Reached t place) :
    Reached t place.dropLast := by
  cases h with
  | root => exact .root
  | directory hplace => simpa using hplace
  | file hplace => simpa using hplace

theorem Reached.of_append
    {before : List String} :
    ∀ {after : List String}, Reached t (before ++ after) → Reached t before := by
  intro after
  induction after using List.reverseRecOn with
  | nil => simp
  | append_singleton after name ih =>
    intro h
    apply ih
    have := h.dropLast
    rwa [← List.append_assoc, List.dropLast_concat] at this

theorem get?_append
    (e : Entry)
    (names rest : List String) :
    e.get? (names ++ rest) = (e.get? names).bind fun inner => inner.get? rest := by
  induction names generalizing e with
  | nil => cases e <;> simp [Entry.get?]
  | cons name names ih =>
    cases e with
    | directory entries =>
      rw [List.cons_append, Entry.get?, Entry.get?]
      cases Entry.lookup? name entries with
      | none => rfl
      | some inner => exact ih inner
    | file content => rfl
    | link target => rfl

/-- Below a file there is nothing. -/
theorem get?_below_file
    {names : List String}
    {content : Content}
    (h : t.root.get? names = some (.file content))
    (name : String)
    (rest : List String) :
    t.root.get? (names ++ name :: rest) = none := by
  rw [get?_append, h]
  rfl

theorem Reached.exists_entry
    {place : List String}
    (h : Reached t place) :
    ∃ e, t.root.get? place = some e := by
  cases h with
  | root => exact ⟨t.root, by cases t.root <;> rfl⟩
  | directory _ _ hentry => exact ⟨_, hentry⟩
  | file _ _ hentry => exact ⟨_, hentry⟩

/-- On the way to a place every name but the last is that of a directory. -/
theorem Reached.cases_append
    {place rest : List String}
    {name : String}
    (h : Reached t (place ++ name :: rest)) :
    name ≠ ".." ∧ ((∃ entries, t.root.get? (place ++ [name]) = some (.directory entries)) ∨
      (∃ content, t.root.get? (place ++ [name]) = some (.file content)) ∧ rest = []) := by
  have hentry := h.exists_entry
  have hfirst : Reached t (place ++ [name]) := by
    rw [List.append_cons] at h
    exact h.of_append
  generalize hplace : place ++ [name] = names at hfirst
  cases hfirst with
  | root => simp at hplace
  | directory _ hname hdirectory =>
    obtain ⟨rfl, rfl⟩ := List.append_singleton_inj.1 hplace
    exact ⟨hname, .inl ⟨_, hdirectory⟩⟩
  | file _ hname hfile =>
    obtain ⟨rfl, rfl⟩ := List.append_singleton_inj.1 hplace
    refine ⟨hname, .inr ⟨⟨_, hfile⟩, ?_⟩⟩
    cases rest with
    | nil => rfl
    | cons next rest =>
      rw [List.append_cons, get?_below_file hfile] at hentry
      simp at hentry

end Places

section Locating

/-- Where a path leads from a place, and over how many links at most. -/
inductive Leads (t : Tree) : Nat → List String → List String → List String → Prop
  | here
      {links : Nat}
      {done : List String} :
      Leads t links done [] done
  | up
      {links : Nat}
      {done rest place : List String}
      (h : Leads t links done.dropLast rest place) :
      Leads t links done (".." :: rest) place
  | directory
      {links : Nat}
      {done rest place : List String}
      {name : String}
      {entries : List (String × Entry)}
      (hname : name ≠ "..")
      (hentry : t.root.get? (done ++ [name]) = some (.directory entries))
      (h : Leads t links (done ++ [name]) rest place) :
      Leads t links done (name :: rest) place
  | file
      {links : Nat}
      {done : List String}
      {name : String}
      {content : Content}
      (hname : name ≠ "..")
      (hentry : t.root.get? (done ++ [name]) = some (.file content)) :
      Leads t links done [name] (done ++ [name])
  | link
      {links : Nat}
      {done rest place : List String}
      {name target : String}
      (hname : name ≠ "..")
      (hentry : t.root.get? (done ++ [name]) = some (.link target))
      (h : Leads t links (if (Path.ofText target).isAbsolute then [] else done)
        ((Path.ofText target).components ++ rest) place) :
      Leads t (links + 1) done (name :: rest) place

variable {t : Tree} {links : Nat}

/-- One step on the way to something that exists. -/
theorem locateFrom?_cons
    (done : List String)
    (name : String)
    (rest : List String) :
    locateFrom? t links done (name :: rest) =
      if name = ".." then locateFrom? t links done.dropLast rest
      else
        match t.root.get? (done ++ [name]) with
        | none => none
        | some (.link target) =>
          match links with
          | 0 => none
          | links + 1 =>
            locateFrom? t links (if (Path.ofText target).isAbsolute then [] else done)
              ((Path.ofText target).components ++ rest)
        | some (.directory _) => locateFrom? t links (done ++ [name]) rest
        | some (.file _) => if rest.isEmpty then some (done ++ [name]) else none := by
  rcases hentry : t.root.get? (done ++ [name]) with _ | (_ | _ | _) <;> cases links <;>
    simp [locateFrom?, locateWith?, hentry]

theorem leads_of_locateFrom?
    {done rest place : List String}
    (h : locateFrom? t links done rest = some place) :
    Leads t links done rest place := by
  induction links using Nat.strong_induction_on generalizing done rest with
  | _ links ihlinks =>
    induction rest generalizing done with
    | nil =>
      obtain rfl : done = place := by cases links <;> simpa [locateFrom?, locateWith?] using h
      exact .here
    | cons name rest ih =>
      rw [locateFrom?_cons] at h
      split at h
      · next hname =>
        subst hname
        exact .up (ih h)
      · next hname =>
        split at h
        · cases h
        · next target hentry =>
          cases links with
          | zero => cases h
          | succ links => exact .link hname hentry (ihlinks links (Nat.lt_succ_self _) h)
        · next entries hentry => exact .directory hname hentry (ih h)
        · next content hentry =>
          cases rest with
          | nil =>
            obtain rfl : done ++ [name] = place := by simpa using h
            exact .file hname hentry
          | cons next rest => simp at h

/-- Something that exists is found exactly where a path leads. -/
theorem locateFrom?_eq_some_iff
    {done rest place : List String} :
    locateFrom? t links done rest = some place ↔ Leads t links done rest place := by
  refine ⟨leads_of_locateFrom?, fun h => ?_⟩
  induction h with
  | @here links done => cases links <;> rfl
  | up _ ih => rw [locateFrom?_cons, if_pos rfl, ih]
  | directory hname hentry _ ih => simp only [locateFrom?_cons, if_neg hname, hentry, ih]
  | file hname hentry => simp [locateFrom?_cons, if_neg hname, hentry]
  | link hname hentry _ ih => simp only [locateFrom?_cons, if_neg hname, hentry, ih]

/-- A way over some links is a way over more. -/
theorem Leads.mono
    {more : Nat}
    {done rest place : List String}
    (h : Leads t links done rest place)
    (hlinks : links ≤ more) :
    Leads t more done rest place := by
  induction h generalizing more with
  | here => exact .here
  | up _ ih => exact .up (ih hlinks)
  | directory hname hentry _ ih => exact .directory hname hentry (ih hlinks)
  | file hname hentry => exact .file hname hentry
  | link hname hentry _ ih =>
    cases more with
    | zero => omega
    | succ more => exact .link hname hentry (ih (by omega))

/-- The two parts of a way. -/
theorem Leads.exists_middle
    {done before rest place : List String}
    (h : Leads t links done (before ++ rest) place) :
    ∃ middle, Leads t links done before middle ∧ Leads t links middle rest place := by
  generalize hwhole : before ++ rest = whole at h
  induction h generalizing before with
  | here =>
    obtain ⟨rfl, rfl⟩ := List.append_eq_nil_iff.1 hwhole
    exact ⟨_, .here, .here⟩
  | up h ih =>
    cases before with
    | nil =>
      subst hwhole
      exact ⟨_, .here, .up h⟩
    | cons name before =>
      obtain ⟨rfl, hrest⟩ := List.cons.inj hwhole
      obtain ⟨middle, hbefore, hafter⟩ := ih hrest
      exact ⟨middle, .up hbefore, hafter⟩
  | directory hname hentry h ih =>
    cases before with
    | nil =>
      subst hwhole
      exact ⟨_, .here, .directory hname hentry h⟩
    | cons name before =>
      obtain ⟨rfl, hrest⟩ := List.cons.inj hwhole
      obtain ⟨middle, hbefore, hafter⟩ := ih hrest
      exact ⟨middle, .directory hname hentry hbefore, hafter⟩
  | file hname hentry =>
    cases before with
    | nil =>
      subst hwhole
      exact ⟨_, .here, .file hname hentry⟩
    | cons name before =>
      obtain ⟨rfl, hrest⟩ := List.cons.inj hwhole
      obtain ⟨rfl, rfl⟩ := List.append_eq_nil_iff.1 hrest
      exact ⟨_, .file hname hentry, .here⟩
  | link hname hentry h ih =>
    cases before with
    | nil =>
      subst hwhole
      exact ⟨_, .here, .link hname hentry h⟩
    | cons name before =>
      obtain ⟨rfl, rfl⟩ := List.cons.inj hwhole
      obtain ⟨middle, hbefore, hafter⟩ := ih (List.append_assoc _ before rest)
      exact ⟨middle, .link hname hentry hbefore, hafter.mono (Nat.le_succ _)⟩

/-- What exists at the end of a way has its first name exist. -/
theorem Leads.exists_first
    {done rest place : List String}
    {name : String}
    (h : Leads t links done (name :: rest) place) :
    ∃ middle, Leads t links done [name] middle := by
  obtain ⟨middle, hfirst, -⟩ := @Leads.exists_middle t links done [name] rest place h
  exact ⟨middle, hfirst⟩

theorem Leads.reached
    {done rest place : List String}
    (h : Leads t links done rest place)
    (hdone : Reached t done) :
    Reached t place := by
  induction h with
  | here => exact hdone
  | up _ ih => exact ih hdone.dropLast
  | directory hname hentry _ ih => exact ih (.directory hdone hname hentry)
  | file hname hentry => exact .file hdone hname hentry
  | link hname hentry _ ih =>
    refine ih ?_
    split
    · exact .root
    · exact hdone

theorem leads_of_reached
    {done rest : List String}
    (h : Reached t (done ++ rest)) :
    Leads t links done rest (done ++ rest) := by
  induction rest generalizing done with
  | nil => simpa using Leads.here
  | cons name rest ih =>
    obtain ⟨hname, ⟨entries, hentry⟩ | ⟨⟨content, hentry⟩, rfl⟩⟩ := h.cases_append
    · rw [List.append_cons] at h ⊢
      exact .directory hname hentry (ih h)
    · exact .file hname hentry

/-- What stands above something is a directory. -/
theorem exists_directory_of_append
    {names rest : List String}
    {name : String}
    {e : Entry}
    (h : t.root.get? (names ++ name :: rest) = some e) :
    ∃ entries, t.root.get? names = some (.directory entries) := by
  rw [get?_append] at h
  obtain ⟨inner, hinner, hrest⟩ := Option.bind_eq_some_iff.1 h
  cases inner with
  | directory entries => exact ⟨entries, hinner⟩
  | file content => cases hrest
  | link target => cases hrest

/-- A way through directories can be cut short. -/
theorem leads_append_iff
    {done names rest place : List String}
    {name : String}
    {e : Entry}
    (hnames : ".." ∉ names)
    (hentry : t.root.get? (done ++ names ++ [name]) = some e) :
    Leads t links done (names ++ rest) place ↔ Leads t links (done ++ names) rest place := by
  induction names generalizing done with
  | nil => simp
  | cons first names ih =>
    rw [List.mem_cons, not_or] at hnames
    have hbelow : t.root.get? (done ++ [first] ++ names ++ [name]) = some e := by simpa using hentry
    obtain ⟨entries, hfirst⟩ : ∃ entries, t.root.get? (done ++ [first]) = some (.directory entries) := by
      cases names with
      | nil => exact exists_directory_of_append (by simpa using hentry)
      | cons second names => exact exists_directory_of_append (by simpa using hentry)
    rw [List.append_cons, ← ih hnames.2 hbelow, List.cons_append]
    generalize names ++ rest = more
    constructor
    · intro h
      cases h with
      | up => exact absurd rfl hnames.1
      | directory _ _ h => exact h
      | file hname hfile => rw [hfirst] at hfile; cases hfile
      | link hname hlink => rw [hfirst] at hlink; cases hlink
    · exact .directory (Ne.symm hnames.1) hfirst

theorem leads_concat_iff
    {done place : List String}
    {name : String}
    {e : Entry}
    (hdone : ".." ∉ done)
    (hentry : t.root.get? (done ++ [name]) = some e) :
    Leads t links [] (done ++ [name]) place ↔ Leads t links done [name] place :=
  @leads_append_iff t links [] done [name] place name e hdone hentry

end Locating

section Resolving

variable {t : Tree}

/-- One step in resolving a path. -/
theorem resolveFrom_cons
    (depth : Nat)
    (active : List (List String))
    (done : List String)
    (name : String)
    (rest : List String) :
    resolveFrom t depth active done (name :: rest) =
      if name = ".." then resolveFrom t depth active done.dropLast rest
      else
        match t.root.get? (done ++ [name]) with
        | some (.link target) =>
          if done ++ [name] ∈ active then resolveFrom t depth active (done ++ [name]) rest
          else
            match depth with
            | 0 => resolveFrom t 0 active (done ++ [name]) rest
            | depth + 1 =>
              resolveFrom t (depth + 1) active (resolveFrom t depth ((done ++ [name]) :: active)
                (if (Path.ofText target).isAbsolute then [] else done)
                (Path.ofText target).components) rest
        | _ => resolveFrom t depth active (done ++ [name]) rest := by
  rcases hentry : t.root.get? (done ++ [name]) with _ | (_ | _ | _) <;> cases depth <;>
    simp [resolveFrom, resolveWith, hentry]

@[simp]
theorem resolveFrom_nil
    (depth : Nat)
    (active : List (List String))
    (done : List String) :
    resolveFrom t depth active done [] = done := by
  cases depth <;> rfl

theorem mem_linkPlacesIn_of_lookup?
    {name : String}
    {entries : List (String × Entry)}
    {inner : Entry}
    {names : List String}
    (h : Entry.lookup? name entries = some inner)
    (hnames : names ∈ linkPlaces inner) :
    name :: names ∈ linkPlacesIn entries := by
  induction entries with
  | nil => cases h
  | cons first rest ih =>
    rw [Entry.lookup?] at h
    rw [linkPlacesIn, List.mem_append]
    split at h
    · next hname =>
      cases h
      subst hname
      exact .inl (List.mem_map_of_mem hnames)
    · exact .inr (ih h)

theorem mem_linkPlaces_of_get?
    {e : Entry}
    {names : List String}
    {target : String}
    (h : e.get? names = some (.link target)) :
    names ∈ linkPlaces e := by
  induction names generalizing e with
  | nil =>
    rw [Entry.get?] at h
    cases h
    exact List.mem_singleton_self _
  | cons name rest ih =>
    cases e with
    | file content => cases h
    | link other => cases h
    | directory entries =>
      rw [Entry.get?] at h
      cases hinner : Entry.lookup? name entries with
      | none => rw [hinner] at h; cases h
      | some inner =>
        rw [hinner] at h
        exact mem_linkPlacesIn_of_lookup? hinner (ih h)

/-- A place whose names lead through no links, other than links that lead to nothing. -/
structure Firm (t : Tree) (place : List String) : Prop where
  names : ".." ∉ place
  links : ∀ before name after target, place = before ++ name :: after →
    t.root.get? (before ++ [name]) = some (.link target) →
      ∀ links found, ¬ Leads t links [] (before ++ [name]) found

/-- The links that are being followed: none twice, and not too many for the depth that is left. -/
structure Pursued (t : Tree) (depth : Nat) (active : List (List String)) : Prop where
  nodup : active.Nodup
  are_links : ∀ link ∈ active, link ∈ linkPlaces t.root
  bounded : (linkPlaces t.root).length ≤ depth + active.length

theorem Firm.nil : Firm t [] :=
  ⟨by simp, by simp⟩

theorem Firm.dropLast
    {place : List String}
    (h : Firm t place) :
    Firm t place.dropLast := by
  rcases List.eq_nil_or_concat' place with rfl | ⟨names, last, rfl⟩
  · exact h
  · rw [List.dropLast_concat]
    refine ⟨fun hname => h.names (List.mem_append_left _ hname), ?_⟩
    rintro before name after target rfl
    exact h.links before name (after ++ [last]) target (by simp)

theorem Firm.concat
    {place : List String}
    {name : String}
    (h : Firm t place)
    (hname : name ≠ "..")
    (hlink : ∀ target, t.root.get? (place ++ [name]) = some (.link target) →
      ∀ links found, ¬ Leads t links [] (place ++ [name]) found) :
    Firm t (place ++ [name]) := by
  refine ⟨by simp [h.names, hname.symm], fun before name' after target heq => ?_⟩
  rcases List.eq_nil_or_concat' after with rfl | ⟨after, last, rfl⟩
  · obtain ⟨rfl, hlast⟩ := List.append_inj' heq rfl
    cases hlast
    exact hlink target
  · rw [← List.cons_append, ← List.append_assoc] at heq
    exact h.links before name' after target (List.append_inj' heq rfl).1

/-- A firm place of something that exists is reached. -/
theorem Firm.reached
    {links : Nat}
    {done rest place : List String}
    (h : Firm t (done ++ rest))
    (hdone : Reached t done)
    (hleads : Leads t links done rest place) :
    Reached t (done ++ rest) := by
  induction hleads with
  | here => simpa using hdone
  | up => exact absurd (by simp) h.names
  | @directory _ done rest _ name entries hname hentry _ ih =>
    rw [List.append_cons] at h ⊢
    exact ih h (.directory hdone hname hentry)
  | file hname hentry => exact .file hdone hname hentry
  | @link links done rest place name target hname hentry hleads =>
    obtain ⟨middle, hfirst⟩ := (Leads.link hname hentry hleads).exists_first
    have hnames : ".." ∉ done := fun hmem => h.names (List.mem_append_left _ hmem)
    rw [← leads_concat_iff hnames hentry] at hfirst
    exact absurd hfirst (h.links done name rest target rfl hentry _ _)

/-- A link that leads nowhere unless its place has been reached over fewer links leads nowhere. -/
theorem not_leads_of_returning
    {done rest : List String}
    {name target : String}
    (hdone : ".." ∉ done)
    (hname : name ≠ "..")
    (hentry : t.root.get? (done ++ [name]) = some (.link target))
    (hreturns : ∀ links place, Leads t (links + 1) [] (done ++ [name]) place →
      ∃ place', Leads t links done (name :: rest) place')
    (links : Nat)
    (place : List String) :
    ¬ Leads t links [] (done ++ [name]) place := by
  induction links generalizing place with
  | zero =>
    rw [leads_concat_iff hdone hentry]
    intro h
    cases h with
    | up => exact hname rfl
    | directory _ hdirectory => rw [hentry] at hdirectory; cases hdirectory
    | file _ hfile => rw [hentry] at hfile; cases hfile
  | succ links ih =>
    intro h
    obtain ⟨place', hagain⟩ := hreturns links place h
    obtain ⟨middle, hlink⟩ := hagain.exists_first
    exact ih middle ((leads_concat_iff hdone hentry).2 hlink)

theorem Pursued.cons
    {depth : Nat}
    {active : List (List String)}
    {link : List String}
    {target : String}
    (h : Pursued t (depth + 1) active)
    (hentry : t.root.get? link = some (.link target))
    (hlink : link ∉ active) :
    Pursued t depth (link :: active) := by
  refine ⟨List.nodup_cons.2 ⟨hlink, h.nodup⟩, ?_, ?_⟩
  · exact List.forall_mem_cons.2 ⟨mem_linkPlaces_of_get? hentry, h.are_links⟩
  · have hbounded := h.bounded
    rw [List.length_cons]
    omega

/-- With no depth left all links are being followed. -/
theorem Pursued.mem_of_zero
    {active : List (List String)}
    {link : List String}
    {target : String}
    (h : Pursued t 0 active)
    (hentry : t.root.get? link = some (.link target)) :
    link ∈ active := by
  by_contra hlink
  have hnodup : (link :: active).Nodup := List.nodup_cons.2 ⟨hlink, h.nodup⟩
  have hall : ∀ l ∈ link :: active, l ∈ linkPlaces t.root :=
    List.forall_mem_cons.2 ⟨mem_linkPlaces_of_get? hentry, h.are_links⟩
  have hlength := (hnodup.subperm hall).length_le
  have hbounded := h.bounded
  rw [List.length_cons] at hlength
  omega

/-- The links that are being followed lead nowhere unless the rest of the way does over fewer links. -/
def Awaited
    (t : Tree)
    (active : List (List String))
    (done rest : List String) :
    Prop :=
  ∀ link ∈ active, ∀ links place, Leads t (links + 1) [] link place →
    ∃ place', Leads t links done rest place'

theorem Awaited.mono
    {active : List (List String)}
    {done rest done' rest' : List String}
    (h : Awaited t active done rest)
    (hleads : ∀ links place, Leads t links done rest place →
      ∃ place', Leads t links done' rest' place') :
    Awaited t active done' rest' := by
  intro link hlink links place hplace
  obtain ⟨place', h'⟩ := h link hlink links place hplace
  exact hleads links place' h'

/-- What a resolved path is: a firm place, and the one where the path leads, if it leads anywhere. -/
structure Resolves
    (t : Tree)
    (done rest place : List String) :
    Prop where
  firm : Firm t place
  eq_of_leads : ∀ links found, Leads t links done rest found → place = found

/-- A name that is kept is a step, if it leads to nothing else. -/
theorem Resolves.step
    {done rest place : List String}
    {name : String}
    (h : Resolves t (done ++ [name]) rest place)
    (hleads : ∀ links found, Leads t links done (name :: rest) found →
      Leads t links (done ++ [name]) rest found) :
    Resolves t done (name :: rest) place :=
  ⟨h.firm, fun links found hfound => h.eq_of_leads links found (hleads links found hfound)⟩

/-- Where a name leads that stands for no link. -/
theorem Leads.step
    {links : Nat}
    {done rest place : List String}
    {name : String}
    (hname : name ≠ "..")
    (hentry : ∀ target, t.root.get? (done ++ [name]) ≠ some (.link target))
    (h : Leads t links done (name :: rest) place) :
    Leads t links (done ++ [name]) rest place := by
  cases h with
  | up => exact absurd rfl hname
  | directory _ _ h => exact h
  | file => exact .here
  | link _ hlink => exact absurd hlink (hentry _)

/-- Where a link leads: along its target, and from there on. -/
theorem Leads.followed
    {links : Nat}
    {done rest place : List String}
    {name target : String}
    (hname : name ≠ "..")
    (hentry : t.root.get? (done ++ [name]) = some (.link target))
    (h : Leads t links done (name :: rest) place) :
    ∃ fewer middle, links = fewer + 1 ∧
      Leads t fewer (if (Path.ofText target).isAbsolute then [] else done)
        (Path.ofText target).components middle ∧
      Leads t fewer middle rest place := by
  cases h with
  | up => exact absurd rfl hname
  | directory _ hdirectory => rw [hentry] at hdirectory; cases hdirectory
  | file _ hfile => rw [hentry] at hfile; cases hfile
  | @link fewer _ _ _ _ target' _ hlink h =>
    obtain rfl : target = target' := by simpa using hentry.symm.trans hlink
    obtain ⟨middle, hbefore, hafter⟩ := h.exists_middle
    exact ⟨fewer, middle, rfl, hbefore, hafter⟩

theorem resolves_resolveFrom
    {depth : Nat}
    {active : List (List String)}
    (hactive : Pursued t depth active)
    {done rest : List String}
    (hdone : Firm t done)
    (hawaited : Awaited t active done rest) :
    Resolves t done rest (resolveFrom t depth active done rest) := by
  -- outer induction: the depth that is left; inner induction: the rest of the way
  induction depth using Nat.strong_induction_on generalizing active done rest with
  | _ depth ihdepth =>
    induction rest generalizing done with
    | nil =>
      rw [resolveFrom_nil]
      exact ⟨hdone, fun links found h => by cases h; rfl⟩
    | cons name rest ih =>
      rw [resolveFrom_cons]
      split
      · next hname =>
        subst hname
        have hup : ∀ links found, Leads t links done (".." :: rest) found →
            Leads t links done.dropLast rest found := by
          intro links found h
          cases h with
          | up h => exact h
          | _ => contradiction
        have h := ih hdone.dropLast (hawaited.mono fun links found h => ⟨found, hup links found h⟩)
        exact ⟨h.firm, fun links found hfound => h.eq_of_leads links found (hup links found hfound)⟩
      · next hname =>
        split
        · next target hentry =>
          split
          · next hlink =>
            -- the link is being followed already
            have hnowhere := not_leads_of_returning hdone.names hname hentry (hawaited _ hlink)
            have hstep : ∀ links found, ¬ Leads t links done (name :: rest) found := by
              intro links found h
              obtain ⟨middle, hfirst⟩ := h.exists_first
              exact hnowhere _ _ ((leads_concat_iff hdone.names hentry).2 hfirst)
            have h := ih (hdone.concat hname fun _ _ => hnowhere)
              (hawaited.mono fun links found h => absurd h (hstep links found))
            exact h.step fun links found h => absurd h (hstep links found)
          · next hlink =>
            cases depth with
            | zero => exact absurd (hactive.mem_of_zero hentry) hlink
            | succ depth =>
              have hfollow {links : Nat} {found : List String}
                  (h : Leads t links done (name :: rest) found) := h.followed hname hentry
              have hstart : Firm t (if (Path.ofText target).isAbsolute then [] else done) := by
                split
                · exact .nil
                · exact hdone
              have htarget : Awaited t ((done ++ [name]) :: active)
                  (if (Path.ofText target).isAbsolute then [] else done)
                  (Path.ofText target).components := by
                intro link hmem links place h
                rcases List.mem_cons.1 hmem with rfl | hmem
                · rw [leads_concat_iff hdone.names hentry] at h
                  obtain ⟨fewer, middle, hfewer, hbefore, -⟩ := h.followed hname hentry
                  exact ⟨middle, hbefore.mono (by omega)⟩
                · obtain ⟨place', h'⟩ := hawaited link hmem links place h
                  obtain ⟨fewer, middle, rfl, hbefore, -⟩ := hfollow h'
                  exact ⟨middle, hbefore.mono (Nat.le_succ _)⟩
              have hinner := ihdepth depth (Nat.lt_succ_self _) (hactive.cons hentry hlink) hstart htarget
              have hstep {links : Nat} {found : List String}
                  (h : Leads t links done (name :: rest) found) :
                  Leads t links (resolveFrom t depth ((done ++ [name]) :: active)
                    (if (Path.ofText target).isAbsolute then [] else done)
                    (Path.ofText target).components) rest found := by
                obtain ⟨fewer, middle, rfl, hbefore, hafter⟩ := hfollow h
                rw [hinner.eq_of_leads fewer middle hbefore]
                exact hafter.mono (Nat.le_succ _)
              have houter := ih hinner.firm (hawaited.mono fun links found h => ⟨found, hstep h⟩)
              exact ⟨houter.firm, fun links found h => houter.eq_of_leads links found (hstep h)⟩
        · next hentry =>
          have hstep {links : Nat} {found : List String} (h : Leads t links done (name :: rest) found) :
              Leads t links (done ++ [name]) rest found :=
            h.step hname fun target htarget => hentry target htarget
          have h := ih (hdone.concat hname fun target htarget => absurd htarget (hentry target))
            (hawaited.mono fun links found h => ⟨found, hstep h⟩)
          exact h.step fun links found h => hstep h

/-- The names of a resolved path are names of the path and of targets of links. -/
theorem forall_mem_resolveFrom
    {P : String → Prop}
    (hP : ∀ target, ∀ c ∈ (Path.ofText target).components, c ≠ ".." → P c)
    {depth : Nat}
    {active : List (List String)}
    {done rest : List String}
    (hdone : ∀ c ∈ done, P c)
    (hrest : ∀ c ∈ rest, c ≠ ".." → P c) :
    ∀ c ∈ resolveFrom t depth active done rest, P c := by
  induction depth using Nat.strong_induction_on generalizing active done rest with
  | _ depth ihdepth =>
    induction rest generalizing done with
    | nil => simpa using hdone
    | cons name rest ih =>
      rw [List.forall_mem_cons] at hrest
      have hkept : name ≠ ".." → ∀ c ∈ resolveFrom t depth active (done ++ [name]) rest, P c := by
        refine fun hname => ih (fun c hc => ?_) hrest.2
        rcases List.mem_append.1 hc with hc | hc
        · exact hdone c hc
        · exact List.mem_singleton.1 hc ▸ hrest.1 hname
      rw [resolveFrom_cons]
      split
      · exact ih (fun c hc => hdone c (List.mem_of_mem_dropLast hc)) hrest.2
      · next hname =>
        split
        · next target _ =>
          split
          · exact hkept hname
          · cases depth with
            | zero => exact hkept hname
            | succ depth =>
              refine ih (ihdepth depth (Nat.lt_succ_self _) ?_ (hP target)) hrest.2
              split
              · simp
              · exact hdone
        · exact hkept hname

/-- A path is resolved to a firm place, which is where it leads if it leads anywhere. -/
theorem resolves_resolve (p : Path) : Resolves t [] p.components (t.resolve p).components :=
  resolves_resolveFrom ⟨List.nodup_nil, by simp, by simp⟩ .nil (by simp [Awaited])

/-- A path that is a place stands for the entry there. -/
theorem find?_of_reached
    {p : Path}
    (h : Reached t p.components) :
    t.find? p = t.root.get? p.components := by
  have hreached : Reached t ([] ++ p.components) := h
  rw [find?, locateFrom?_eq_some_iff.2 (leads_of_reached hreached)]
  rfl

/-- A path whose first name is not there stands for nothing. -/
theorem find?_of_missing
    {p : Path}
    {name : String}
    {rest : List String}
    (hp : p.components = name :: rest)
    (hname : name ≠ "..")
    (hentry : t.root.get? [name] = none) :
    t.find? p = none := by
  rw [find?, hp, locateFrom?_cons, if_neg hname]
  simp [hentry]

/-- What a path stands for is at the place that it is resolved to. -/
theorem reached_resolve
    {p : Path}
    {e : Entry}
    (h : t.find? p = some e) :
    Reached t (t.resolve p).components ∧ t.root.get? (t.resolve p).components = some e := by
  obtain ⟨place, hplace, hentry⟩ := Option.bind_eq_some_iff.1 h
  have hleads := locateFrom?_eq_some_iff.1 hplace
  rw [(resolves_resolve p).eq_of_leads _ _ hleads]
  exact ⟨hleads.reached .root, hentry⟩

/-- A path that stands for something stands for the same when it is resolved. -/
theorem find?_resolve
    {p : Path}
    {e : Entry}
    (h : t.find? p = some e) :
    t.find? (t.resolve p) = some e := by
  obtain ⟨hreached, hentry⟩ := reached_resolve h
  rw [find?_of_reached hreached, hentry]

theorem content?_resolve
    {p : Path}
    (h : t.isFile p = true) :
    ∃ content, t.content? (t.resolve p) = some content := by
  unfold isFile at h
  cases hfind : t.find? p with
  | none => simp [hfind] at h
  | some e =>
    cases e with
    | file content =>
      refine ⟨content, ?_⟩
      simp [content?, find?_resolve hfind]
    | directory entries => simp [hfind] at h
    | link target => simp [hfind] at h

theorem resolve_of_reached
    {p : Path}
    (habsolute : p.isAbsolute = true)
    (h : Reached t p.components) :
    t.resolve p = p := by
  have hreached : Reached t ([] ++ p.components) := h
  have hplace := (resolves_resolve p).eq_of_leads 0 _ (leads_of_reached hreached)
  obtain ⟨_, components⟩ := p
  obtain rfl := habsolute
  exact congrArg (Path.mk true) hplace

/-- A resolved path that stands for something is reached. -/
theorem reached_of_find?_resolve
    {p : Path}
    {e : Entry}
    (h : t.find? (t.resolve p) = some e) :
    Reached t (t.resolve p).components := by
  obtain ⟨place, hplace, -⟩ := Option.bind_eq_some_iff.1 h
  have hfirm : Firm t ([] ++ (t.resolve p).components) := (resolves_resolve p).firm
  exact hfirm.reached .root (locateFrom?_eq_some_iff.1 hplace)

end Resolving

end RouteAtlas.Files.Tree
