import Mathlib
import RouteAtlas.Value

/-!
# Looking up entries

Mappings are lists of entries. Giving a key a value shows under that key alone, and no key is ever
lost by it. Pairs with different keys are entries as they stand, in any order, and become fewer if a key
comes twice.
-/

namespace RouteAtlas

section Entries

variable {α : Type}

/-- A key that was given a value has it, and every other key has the value that it had. -/
@[simp] theorem entryOf?_putEntry
    (key k : String)
    (value : α)
    (entries : List (String × α)) :
    entryOf? k (putEntry key value entries) =
      if key = k then some value else entryOf? k entries := by
  induction entries with
  | nil => simp [putEntry, entryOf?]
  | cons e rest ih =>
    obtain ⟨key', v⟩ := e
    by_cases hkey : key' = key
    · subst hkey
      by_cases hk : key' = k <;> simp [putEntry, entryOf?, hk]
    · by_cases hk : key' = k
      · subst hk
        simp [putEntry, entryOf?, hkey, Ne.symm hkey]
      · simp [putEntry, entryOf?, hkey, hk, ih]

/-- A key that has a value keeps one when a key is given a value. -/
theorem entryOf?_putEntry_isSome
    {key k : String}
    {value : α}
    {entries : List (String × α)}
    (h : (entryOf? k entries).isSome) :
    (entryOf? k (putEntry key value entries)).isSome := by
  rw [entryOf?_putEntry]
  split
  · rfl
  · exact h

theorem entryOf?_putEntry_isSome_iff
    {key k : String}
    {value : α}
    {entries : List (String × α)} :
    (entryOf? k (putEntry key value entries)).isSome ↔ k = key ∨ (entryOf? k entries).isSome := by
  rw [entryOf?_putEntry]
  by_cases hk : key = k
  · simp [hk]
  · simp [hk, Ne.symm hk]

/-- Of the pairs with a key, the last counts. -/
theorem entryOf?_ofPairs_concat
    (k : String)
    (pairs : List (String × α))
    (p : String × α) :
    entryOf? k (ofPairs (pairs ++ [p])) =
      if p.1 = k then some p.2 else entryOf? k (ofPairs pairs) := by
  simp [ofPairs]

/-- What is looked up among pairs is one of them. -/
theorem mem_of_entryOf?_ofPairs
    {k : String}
    {v : α}
    {pairs : List (String × α)}
    (h : entryOf? k (ofPairs pairs) = some v) :
    (k, v) ∈ pairs := by
  induction pairs using List.reverseRecOn with
  | nil => simp [ofPairs, entryOf?] at h
  | append_singleton pairs p ih =>
    rw [entryOf?_ofPairs_concat] at h
    by_cases hp : p.1 = k
    · obtain rfl : p.2 = v := by simpa [hp] using h
      simp [← hp]
    · rw [if_neg hp] at h
      exact List.mem_append_left _ (ih h)

theorem entryOf?_ofPairs_isSome
    {k : String}
    {v : α}
    {pairs : List (String × α)}
    (h : (k, v) ∈ pairs) :
    (entryOf? k (ofPairs pairs)).isSome := by
  induction pairs using List.reverseRecOn with
  | nil => simp at h
  | append_singleton pairs p ih =>
    rw [entryOf?_ofPairs_concat]
    by_cases hp : p.1 = k
    · simp [hp]
    · rw [if_neg hp]
      rcases List.mem_append.1 h with h | h
      · exact ih h
      · simp only [List.mem_singleton] at h
        exact absurd (congrArg Prod.fst h).symm hp

theorem putEntry_of_not_mem
    {key : String}
    {entries : List (String × α)}
    (h : key ∉ entries.map Prod.fst)
    (value : α) :
    putEntry key value entries = entries ++ [(key, value)] := by
  induction entries with
  | nil => rfl
  | cons e rest ih =>
    obtain ⟨k, v⟩ := e
    rw [List.map_cons, List.mem_cons, not_or] at h
    rw [putEntry, if_neg (Ne.symm h.1), ih h.2, List.cons_append]

/-- Giving a key a value adds an entry only if the key has none. -/
theorem length_putEntry_le
    (key : String)
    (value : α)
    (entries : List (String × α)) :
    (putEntry key value entries).length ≤ entries.length + 1 ∧
      (key ∈ entries.map Prod.fst → (putEntry key value entries).length = entries.length) := by
  induction entries with
  | nil => simp [putEntry]
  | cons e rest ih =>
    obtain ⟨k, v⟩ := e
    rw [putEntry]
    by_cases hk : k = key
    · simp [hk]
    · rw [if_neg hk]
      simpa [Ne.symm hk] using ih

theorem ofPairs_concat
    (pairs : List (String × α))
    (p : String × α) :
    ofPairs (pairs ++ [p]) = putEntry p.1 p.2 (ofPairs pairs) := by
  simp [ofPairs]

theorem ofPairs_of_nodup
    {pairs : List (String × α)}
    (h : (pairs.map Prod.fst).Nodup) :
    ofPairs pairs = pairs := by
  induction pairs using List.reverseRecOn with
  | nil => rfl
  | append_singleton pairs p ih =>
    rw [List.map_append, List.nodup_append] at h
    obtain ⟨hpairs, -, hapart⟩ := h
    have hnew : p.1 ∉ pairs.map Prod.fst := fun hmem => hapart p.1 hmem p.1 (by simp) rfl
    rw [ofPairs_concat, ih hpairs, putEntry_of_not_mem hnew]

/-- Giving a key a value leaves every key once. -/
theorem nodup_keys_putEntry
    (key : String)
    (value : α)
    {entries : List (String × α)}
    (h : (entries.map Prod.fst).Nodup) :
    ((putEntry key value entries).map Prod.fst).Nodup := by
  have hkeys (k : String) (entries : List (String × α)) :
      k ∈ (putEntry key value entries).map Prod.fst → k = key ∨ k ∈ entries.map Prod.fst := by
    induction entries with
    | nil => simp [putEntry]
    | cons e rest ih =>
      obtain ⟨k', v⟩ := e
      rw [putEntry]
      split
      · exact .inr
      · simp only [List.map_cons, List.mem_cons]
        rintro (rfl | hk)
        · exact .inr (.inl rfl)
        · exact (ih hk).imp_right .inr
  induction entries with
  | nil => simp [putEntry]
  | cons e rest ih =>
    obtain ⟨k, v⟩ := e
    rw [List.map_cons, List.nodup_cons] at h
    rw [putEntry]
    split
    · exact List.nodup_cons.2 h
    · next hk =>
      refine List.nodup_cons.2 ⟨fun hmem => ?_, ih h.2⟩
      exact (hkeys k rest hmem).elim hk h.1

theorem nodup_keys_ofPairs (pairs : List (String × α)) : ((ofPairs pairs).map Prod.fst).Nodup := by
  induction pairs using List.reverseRecOn with
  | nil => simp [ofPairs]
  | append_singleton pairs p ih =>
    rw [ofPairs_concat]
    exact nodup_keys_putEntry p.1 p.2 ih

/-- Entries that are given values hold what they held or what they were given. -/
theorem forall_mem_putEntry
    {P : String × α → Prop}
    {key : String}
    {value : α}
    {entries : List (String × α)}
    (hvalue : P (key, value))
    (h : ∀ e ∈ entries, P e) :
    ∀ e ∈ putEntry key value entries, P e := by
  induction entries with
  | nil => simpa [putEntry] using hvalue
  | cons e rest ih =>
    obtain ⟨k, v⟩ := e
    rw [List.forall_mem_cons] at h
    rw [putEntry]
    split
    · next hk => exact List.forall_mem_cons.2 ⟨hk ▸ hvalue, h.2⟩
    · exact List.forall_mem_cons.2 ⟨h.1, ih h.2⟩

theorem forall_mem_ofPairs
    {P : String × α → Prop}
    {pairs : List (String × α)}
    (h : ∀ p ∈ pairs, P p) :
    ∀ e ∈ ofPairs pairs, P e := by
  induction pairs using List.reverseRecOn with
  | nil => simp [ofPairs]
  | append_singleton pairs p ih =>
    rw [List.forall_mem_append, List.forall_mem_singleton] at h
    rw [ofPairs_concat]
    exact forall_mem_putEntry h.2 (ih h.1)

theorem putEntry_map
    {β : Type}
    (g : α → β)
    (key : String)
    (value : α)
    (entries : List (String × α)) :
    putEntry key (g value) (entries.map fun e => (e.1, g e.2)) =
      (putEntry key value entries).map fun e => (e.1, g e.2) := by
  induction entries with
  | nil => rfl
  | cons e rest ih =>
    obtain ⟨k, v⟩ := e
    rw [List.map_cons, putEntry, putEntry, ih]
    split <;> rfl

/-- Values may be changed before or after pairs become entries. -/
theorem ofPairs_map
    {β : Type}
    (g : α → β)
    (pairs : List (String × α)) :
    ofPairs (pairs.map fun p => (p.1, g p.2)) = (ofPairs pairs).map fun e => (e.1, g e.2) := by
  induction pairs using List.reverseRecOn with
  | nil => rfl
  | append_singleton pairs p ih =>
    rw [List.map_append, List.map_singleton, ofPairs_concat, ih, ofPairs_concat]
    exact putEntry_map g p.1 p.2 (ofPairs pairs)

/-- Keys that have no value yet come after all others, if no key comes twice. -/
theorem foldl_putMissing
    {more : List (String × α)}
    (h : (more.map Prod.fst).Nodup)
    (entries : List (String × α)) :
    more.foldl (fun acc e => putMissing e.1 e.2 acc) entries =
      entries ++ more.filter fun e => e.1 ∉ entries.map Prod.fst := by
  induction more generalizing entries with
  | nil => simp
  | cons e rest ih =>
    rw [List.map_cons, List.nodup_cons] at h
    rw [List.foldl_cons, ih h.2, putMissing]
    by_cases hmem : e.1 ∈ entries.map Prod.fst
    · have hany : (entries.any fun e' => e'.1 = e.1) = true := by simpa using hmem
      rw [if_pos hany, List.filter_cons_of_neg (by simpa using hmem)]
    · have hany : ¬ (entries.any fun e' => e'.1 = e.1) = true := by simpa using hmem
      rw [if_neg hany, List.filter_cons_of_pos (by simpa using hmem), List.append_assoc,
        List.singleton_append]
      congr 2
      refine List.filter_congr fun e' he' => ?_
      have hne : e'.1 ≠ e.1 := fun heq => h.1 (heq ▸ List.mem_map_of_mem he')
      simp [hne]

theorem entryOf?_eq_find?
    (k : String)
    (entries : List (String × α)) :
    entryOf? k entries = (entries.find? fun e => e.1 == k).map Prod.snd := by
  induction entries with
  | nil => rfl
  | cons e rest ih =>
    rw [entryOf?, List.find?_cons, ih]
    by_cases hk : e.1 = k
    · simp [hk]
    · have hk' : (e.1 == k) = false := by simpa using hk
      simp [hk, hk']

theorem entryOf?_eq_none_iff
    (key : String)
    (entries : List (String × α)) :
    entryOf? key entries = none ↔ key ∉ entries.map Prod.fst := by
  rw [entryOf?_eq_find?, Option.map_eq_none_iff, List.find?_eq_none]
  simp only [beq_iff_eq, List.mem_map, not_exists, not_and]

theorem entryOf?_putMissing
    (key k : String)
    (value : α)
    (entries : List (String × α)) :
    entryOf? k (putMissing key value entries) =
      (entryOf? k entries).or (if key = k then some value else none) := by
  unfold putMissing
  split
  · next hany =>
    by_cases hk : key = k
    · subst hk
      have hsome : (entryOf? key entries).isSome := by
        simpa [entryOf?_eq_find?] using hany
      rw [Option.or_of_isSome hsome]
    · simp [hk]
  · rw [entryOf?_eq_find?, entryOf?_eq_find?, List.find?_append, Option.map_or]
    by_cases hk : key = k <;> simp [hk]

/-- Of several values that are put for a key only if it has none, the first counts. -/
theorem entryOf?_foldl_putMissing
    (k : String)
    (pairs entries : List (String × α)) :
    entryOf? k (pairs.foldl (fun acc p => putMissing p.1 p.2 acc) entries) =
      (entryOf? k entries).or ((pairs.find? fun p => p.1 == k).map Prod.snd) := by
  induction pairs generalizing entries with
  | nil => simp
  | cons p rest ih =>
    rw [List.foldl_cons, ih, entryOf?_putMissing, Option.or_assoc, List.find?_cons]
    by_cases hk : p.1 = k
    · simp [hk]
    · have hk' : (p.1 == k) = false := by simpa using hk
      simp [hk, hk']

theorem length_ofPairs_le (pairs : List (String × α)) : (ofPairs pairs).length ≤ pairs.length := by
  induction pairs using List.reverseRecOn with
  | nil => simp [ofPairs]
  | append_singleton pairs p ih =>
    have hput := (length_putEntry_le p.1 p.2 (ofPairs pairs)).1
    rw [ofPairs_concat, List.length_append, List.length_singleton]
    omega

/-- Pairs of which none is lost are entries as they stand. -/
theorem ofPairs_of_length_eq
    {pairs : List (String × α)}
    (h : (ofPairs pairs).length = pairs.length) :
    ofPairs pairs = pairs := by
  induction pairs using List.reverseRecOn with
  | nil => rfl
  | append_singleton pairs p ih =>
    obtain ⟨hput, hkept⟩ := length_putEntry_le p.1 p.2 (ofPairs pairs)
    have hle := length_ofPairs_le pairs
    rw [ofPairs_concat, List.length_append, List.length_singleton] at h
    have hpairs : ofPairs pairs = pairs := ih (by omega)
    have hnew : p.1 ∉ (ofPairs pairs).map Prod.fst := by
      intro hmem
      have := hkept hmem
      omega
    rw [ofPairs_concat, putEntry_of_not_mem hnew, hpairs]

theorem entryOf?_eq_some_iff
    {entries : List (String × α)}
    (h : (entries.map Prod.fst).Nodup)
    (key : String)
    (value : α) :
    entryOf? key entries = some value ↔ (key, value) ∈ entries := by
  induction entries with
  | nil => simp [entryOf?]
  | cons e rest ih =>
    obtain ⟨k, v⟩ := e
    rw [List.map_cons, List.nodup_cons] at h
    rw [entryOf?]
    by_cases hk : k = key
    · subst hk
      have hrest : (k, value) ∉ rest := fun hmem => h.1 (List.mem_map.2 ⟨_, hmem, rfl⟩)
      simp [hrest, eq_comm]
    · simp [hk, Ne.symm hk, ih h.2]

/-- Under a key stands the last value that comes with it. -/
theorem entryOf?_ofPairs
    (key : String)
    (pairs : List (String × α)) :
    entryOf? key (ofPairs pairs) = (pairs.reverse.find? fun p => p.1 == key).map Prod.snd := by
  induction pairs using List.reverseRecOn with
  | nil => rfl
  | append_singleton pairs p ih =>
    rw [entryOf?_ofPairs_concat, List.reverse_concat, List.find?_cons]
    by_cases hp : p.1 = key
    · simp [hp]
    · have hne : (p.1 == key) = false := by simpa using hp
      rw [if_neg hp, hne, ih]

theorem map_fst_putEntry
    (key : String)
    (value : α)
    (entries : List (String × α)) :
    (putEntry key value entries).map Prod.fst =
      if key ∈ entries.map Prod.fst then entries.map Prod.fst else entries.map Prod.fst ++ [key] := by
  induction entries with
  | nil => rfl
  | cons e rest ih =>
    obtain ⟨k, v⟩ := e
    rw [putEntry]
    by_cases hk : k = key
    · simp [hk]
    · rw [if_neg hk, List.map_cons, ih]
      by_cases hmem : key ∈ rest.map Prod.fst
      · simp only [List.map_cons, List.mem_cons, hmem, or_true, if_true]
      · simp only [List.map_cons, List.mem_cons, hmem, Ne.symm hk, or_false, if_false, List.cons_append]

/-- Each key stands where it first came. -/
theorem map_fst_ofPairs (pairs : List (String × α)) :
    (ofPairs pairs).map Prod.fst = (pairs.map Prod.fst).eraseDups := by
  induction pairs using List.reverseRecOn with
  | nil => rfl
  | append_singleton pairs p ih =>
    rw [ofPairs_concat, map_fst_putEntry, ih, List.map_append, List.eraseDups_append]
    generalize pairs.map Prod.fst = keys
    by_cases hp : p.1 ∈ keys
    · simp [List.removeAll, List.filter, hp]
    · simp [List.removeAll, List.filter, List.eraseDups_cons, hp]

theorem mem_keys_ofPairs_iff
    (key : String)
    (pairs : List (String × α)) :
    key ∈ (ofPairs pairs).map Prod.fst ↔ ∃ value, (key, value) ∈ pairs := by
  rw [map_fst_ofPairs, List.mem_eraseDups, List.mem_map]
  constructor
  · rintro ⟨⟨_, value⟩, hp, rfl⟩
    exact ⟨value, hp⟩
  · rintro ⟨value, hp⟩
    exact ⟨_, hp, rfl⟩

/-- Among different keys, one that has a value is given another in its place. -/
theorem putEntry_of_mem
    {key : String}
    {entries : List (String × α)}
    (h : (entries.map Prod.fst).Nodup)
    (hkey : key ∈ entries.map Prod.fst)
    (value : α) :
    putEntry key value entries = entries.map fun e => (e.1, if e.1 = key then value else e.2) := by
  induction entries with
  | nil => simp at hkey
  | cons e rest ih =>
    obtain ⟨k, v⟩ := e
    rw [List.map_cons, List.nodup_cons] at h
    rw [putEntry, List.map_cons]
    by_cases hk : k = key
    · subst hk
      have hrest : (rest.map fun e => (e.1, if e.1 = k then value else e.2)) = rest := by
        refine (List.map_congr_left fun e he => ?_).trans (List.map_id rest)
        have hne : e.1 ≠ k := fun heq => h.1 (List.mem_map.2 ⟨e, he, heq⟩)
        simp [hne]
      rw [hrest]
      simp
    · have hmem : key ∈ rest.map Prod.fst := by simpa [Ne.symm hk] using hkey
      rw [if_neg hk, if_neg hk, ih h.2 hmem]

/-- The entries of which some are given other values, with the keys that are new after all others. -/
def overridden
    (entries more : List (String × α)) :
    List (String × α) :=
  (entries.map fun e => (e.1, (entryOf? e.1 more).getD e.2)) ++
    more.filter fun e => e.1 ∉ entries.map Prod.fst

/-- Keys are given values one after the other: in place where there is one already, else at the end. -/
theorem foldl_putEntry
    {entries more : List (String × α)}
    (h : (entries.map Prod.fst).Nodup)
    (hmore : (more.map Prod.fst).Nodup) :
    more.foldl (fun acc e => putEntry e.1 e.2 acc) entries = overridden entries more := by
  induction more generalizing entries with
  | nil => simp [overridden, entryOf?]
  | cons e rest ih =>
    obtain ⟨k, v⟩ := e
    rw [List.map_cons, List.nodup_cons] at hmore
    rw [List.foldl_cons, ih (nodup_keys_putEntry k v h) hmore.2]
    have hrest : entryOf? k rest = none := (entryOf?_eq_none_iff k rest).2 hmore.1
    by_cases hk : k ∈ entries.map Prod.fst
    · rw [putEntry_of_mem h hk]
      unfold overridden
      rw [List.map_map, List.map_map, List.filter_cons_of_neg (by simpa using hk)]
      congr 1
      refine List.map_congr_left fun e _ => ?_
      rw [entryOf?]
      by_cases he : e.1 = k
      · simp [he, hrest]
      · simp [he, Ne.symm he]
    · have hkeys : ∀ e ∈ entries, k ≠ e.1 := fun e he heq => hk (List.mem_map.2 ⟨e, he, heq.symm⟩)
      rw [putEntry_of_not_mem hk]
      unfold overridden
      rw [List.map_append, List.filter_cons_of_pos (by simpa using hk), List.append_assoc]
      congr 1
      · refine List.map_congr_left fun e he => ?_
        rw [entryOf?, if_neg (hkeys e he)]
      · simp only [List.map_cons, List.map_nil, hrest, Option.getD_none, List.singleton_append]
        congr 1
        refine List.filter_congr fun e he => ?_
        have hne : e.1 ≠ k := fun heq => hmore.1 (List.mem_map.2 ⟨e, he, heq⟩)
        simp [hne]

section Pairwise

variable {β : Type}

/-- Two entries have the same key and related values. -/
def EntriesAlike
    (R : α → β → Prop)
    (a : String × α)
    (b : String × β) :
    Prop :=
  a.1 = b.1 ∧ R a.2 b.2

variable {R : α → β → Prop}

/-- Lists of entries with the same keys have a value under the same keys, and related ones. -/
theorem entryOf?_of_forall₂
    {as : List (String × α)}
    {bs : List (String × β)}
    (h : List.Forall₂ (EntriesAlike R) as bs)
    (key : String) :
    (entryOf? key as = none ∧ entryOf? key bs = none) ∨
      ∃ a b, entryOf? key as = some a ∧ entryOf? key bs = some b ∧ R a b := by
  induction h with
  | nil => exact .inl ⟨rfl, rfl⟩
  | @cons a b as bs hab _ ih =>
    obtain ⟨k, v⟩ := a
    obtain ⟨k', w⟩ := b
    obtain ⟨hk, hvw⟩ := hab
    obtain rfl : k = k' := hk
    rw [entryOf?, entryOf?]
    by_cases hkey : k = key
    · rw [if_pos hkey, if_pos hkey]
      exact .inr ⟨v, w, rfl, rfl, hvw⟩
    · rw [if_neg hkey, if_neg hkey]
      exact ih

theorem forall₂_putEntry
    {as : List (String × α)}
    {bs : List (String × β)}
    (h : List.Forall₂ (EntriesAlike R) as bs)
    (key : String)
    {v : α}
    {w : β}
    (hvw : R v w) :
    List.Forall₂ (EntriesAlike R) (putEntry key v as) (putEntry key w bs) := by
  induction h with
  | nil => exact .cons ⟨rfl, hvw⟩ .nil
  | @cons a b as bs hab hrest ih =>
    obtain ⟨k, v'⟩ := a
    obtain ⟨k', w'⟩ := b
    obtain ⟨hk, hvw'⟩ := hab
    obtain rfl : k = k' := hk
    rw [putEntry, putEntry]
    by_cases hkey : k = key
    · rw [if_pos hkey, if_pos hkey]
      exact .cons ⟨rfl, hvw⟩ hrest
    · rw [if_neg hkey, if_neg hkey]
      exact .cons ⟨rfl, hvw'⟩ ih

/-- Pairs with the same keys in the same order, and related values, are related entries. -/
theorem forall₂_ofPairs
    {as : List (String × α)}
    {bs : List (String × β)}
    (h : List.Forall₂ (EntriesAlike R) as bs) :
    List.Forall₂ (EntriesAlike R) (ofPairs as) (ofPairs bs) := by
  refine List.rel_foldl (P := List.Forall₂ (EntriesAlike R)) ?_ .nil h
  rintro as bs hrest ⟨k, v⟩ ⟨k', w⟩ ⟨hk, hvw⟩
  obtain rfl : k = k' := hk
  exact forall₂_putEntry hrest k hvw

end Pairwise

/-- Entries with different keys may stand in any order. -/
theorem entryOf?_perm
    {entries entries' : List (String × α)}
    (hperm : entries.Perm entries')
    (h : (entries.map Prod.fst).Nodup)
    (key : String) :
    entryOf? key entries = entryOf? key entries' := by
  have h' : (entries'.map Prod.fst).Nodup := (hperm.map Prod.fst).nodup_iff.1 h
  refine Option.ext fun value => ?_
  rw [entryOf?_eq_some_iff h, entryOf?_eq_some_iff h', hperm.mem_iff]

end Entries

end RouteAtlas
