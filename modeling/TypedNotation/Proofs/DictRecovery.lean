import TypedNotation.Proofs.SequenceFindings

/-!
# What a dict keeps

A dict may be out of sequence in many ways, and what is kept of it follows one rule. The keys are
those whose name comes for the first time. A property is such a key together with the value behind
it, if nothing but separators is between the two; a key that is followed by anything else has none,
and a second key of the name does not make up for it.

All of this is read off the places of the chunks (`Sequence.dict_eq`): `Place.newKey` is a key of a
new name, `Place.repeatedKey` the finding for any other key, and `Place.newEntry` a value for which
such a key waits (`waiting_eq_some_iff`).
-/

namespace TypedNotation

open List Sequence.Place Chunk

namespace Sequence

variable {name : String} {cs : List Chunk}

/-! ### Keys -/

/-- The names of the new keys are those not seen before, each once. -/
theorem map_fst_newKey (before cs : List Chunk) :
    ((placesFrom before cs).flatMap newKey).map (·.1) =
      ((keyNames cs).filter (· ∉ keyNames before)).eraseDups := by
  induction cs generalizing before with
  | nil => rfl
  | cons c cs ih =>
    rw [placesFrom, flatMap_cons, map_append, ih, keyNames_cons, keyNames_cons]
    cases hkey : c.key? with
    | none =>
      have hnew : (mk before c cs).newKey = [] := by simp [newKey, hkey]
      rw [hnew]
      rfl
    | some k =>
      -- from here on the name counts as seen
      have hseen : ∀ n, decide (n ∉ k.1 :: keyNames before) =
          (!(n == k.1) && decide (n ∉ keyNames before)) := by
        intro n
        by_cases hn : n = k.1 <;> simp [hn]
      change _ ++ ((keyNames cs).filter fun n => decide (n ∉ k.1 :: keyNames before)).eraseDups =
        ((k.1 :: keyNames cs).filter fun n => decide (n ∉ keyNames before)).eraseDups
      by_cases hmem : k.1 ∈ keyNames before
      · have hnew : (mk before c cs).newKey = [] := by simp [newKey, hkey, hmem]
        have hfilter : ∀ n, decide (n ∉ k.1 :: keyNames before) = decide (n ∉ keyNames before) := by
          intro n
          by_cases hn : n = k.1 <;> simp [hn, hmem]
        rw [hnew, filter_cons_of_neg (by simp [hmem])]
        simp only [hfilter, map_nil, nil_append]
      · have hnew : (mk before c cs).newKey = [k] := by simp [newKey, hkey, hmem]
        rw [hnew, filter_cons_of_pos (by simp [hmem]), eraseDups_cons, filter_filter]
        simp only [hseen, map_cons, map_nil, singleton_append]

theorem nodup_eraseDups : ∀ names : List String, names.eraseDups.Nodup
  | [] => nodup_nil
  | name :: names => by
    rw [eraseDups_cons, nodup_cons]
    exact ⟨by simp [mem_eraseDups], nodup_eraseDups _⟩
termination_by names => names.length
decreasing_by exact Nat.lt_succ_of_le (length_filter_le _ _)

theorem nodup_map_fst_newKey (cs : List Chunk) :
    (((places cs).flatMap newKey).map (·.1)).Nodup := by
  rw [places, map_fst_newKey]
  exact nodup_eraseDups _

/-- A key is taken in where its name is new. -/
theorem Place.mem_newKey_iff {p : Place} {k : String × Range} :
    k ∈ p.newKey ↔ p.chunk.key? = some k ∧ k.1 ∉ keyNames p.before := by
  simp [newKey]

/-- A name is written first at one place only. -/
theorem eq_of_first_key {front front' back back' : List Chunk} {k k' : Chunk}
    (h : front ++ k :: back = front' ++ k' :: back') (hk : k.key?.map (·.1) = some name)
    (hk' : k'.key?.map (·.1) = some name) (hfront : name ∉ keyNames front)
    (hfront' : name ∉ keyNames front') : k = k' ∧ back = back' := by
  have hmem {cs : List Chunk} {k : Chunk} (hk : k.key?.map (·.1) = some name) (hc : k ∈ cs) :
      name ∈ keyNames cs := by
    obtain ⟨e, he, rfl⟩ := Option.map_eq_some_iff.1 hk
    exact mem_map_of_mem (mem_filterMap.2 ⟨k, hc, he⟩)
  rcases append_eq_append_iff.1 h with ⟨_ | ⟨c, mid⟩, rfl, hmid⟩ | ⟨_ | ⟨c, mid⟩, rfl, hmid⟩
  · exact List.cons.inj hmid
  · obtain ⟨rfl, -⟩ := List.cons.inj hmid
    exact absurd (hmem hk (by simp)) hfront'
  · exact (List.cons.inj hmid).imp Eq.symm Eq.symm
  · obtain ⟨rfl, -⟩ := List.cons.inj hmid
    exact absurd (hmem hk' (by simp)) hfront

/-- A new key stands where its name is written first. -/
theorem lookup_of_mem_newKey {k : String × Range}
    (h : k ∈ (places cs).flatMap newKey) :
    (cs.filterMap key?).lookup k.1 = some k.2 := by
  obtain ⟨p, hp, hk⟩ := mem_flatMap.1 h
  obtain ⟨hkey, hfresh⟩ := mem_newKey_iff.1 hk
  have hnone : (p.before.reverse.filterMap key?).lookup k.1 = none := by
    rw [lookup_eq_none_iff]
    intro e he
    have hmem : e.1 ∈ keyNames p.before := by
      rw [filterMap_reverse, mem_reverse] at he
      exact mem_map_of_mem he
    rw [bne_iff_ne]
    exact fun heq => hfresh (heq ▸ hmem)
  rw [mem_places.1 hp, filterMap_append, lookup_append, hnone, filterMap_cons, hkey]
  obtain ⟨name, range⟩ := k
  exact lookup_cons_self

/-! ### Properties -/

/-- Whether a chunk separates. -/
def IsSeparator (c : Chunk) : Prop :=
  c.role = .comma ∨ c.role = .newline

theorem waiting_of_isSeparator {c : Chunk} (h : IsSeparator c) (before : List Chunk) :
    waiting (c :: before) = waiting before := by
  cases c with
  | separator weak r t => rfl
  | _ => rcases h with h | h <;> cases h

theorem waiting_of_key {c : Chunk} (h : c.key?.map (·.1) = some name)
    (before : List Chunk) : waiting (c :: before) = some (name, before) := by
  cases c with
  | key key nameRange r t =>
    obtain rfl : key = name := Option.some.inj h
    rfl
  | _ => cases h

/-- A key waits exactly if only separators have come since. -/
theorem waiting_eq_some_iff {before older : List Chunk} :
    waiting before = some (name, older) ↔ ∃ separators k, before = separators ++ k :: older ∧
      (∀ c ∈ separators, IsSeparator c) ∧ k.key?.map (·.1) = some name := by
  constructor
  · induction before with
    | nil => exact fun h => by cases h
    | cons c before ih =>
      intro h
      cases c with
      | key key nameRange r t =>
        obtain ⟨rfl, rfl⟩ := Prod.mk.inj (Option.some.inj h)
        exact ⟨[], _, rfl, by simp, rfl⟩
      | separator weak r t =>
        obtain ⟨separators, k, rfl, hseparators, hkey⟩ := ih h
        have hfirst : IsSeparator (.separator weak r t) := by
          cases weak
          · exact .inl rfl
          · exact .inr rfl
        exact ⟨_ :: separators, k, rfl, forall_mem_cons.2 ⟨hfirst, hseparators⟩, hkey⟩
      | _ => cases h
  · rintro ⟨separators, k, rfl, hseparators, hkey⟩
    induction separators with
    | nil => exact waiting_of_key hkey older
    | cons c separators ih =>
      obtain ⟨hfirst, hrest⟩ := forall_mem_cons.1 hseparators
      rw [cons_append, waiting_of_isSeparator hfirst]
      exact ih hrest

theorem mem_keyNames_reverse : name ∈ keyNames cs.reverse ↔ name ∈ keyNames cs := by
  simp [keyNames]

/-- A value is taken in behind a key whose name is new. -/
theorem Place.mem_newEntry_iff {p : Place} {data : Data} :
    (name, data) ∈ p.newEntry ↔ p.chunk.value? = some data ∧
      ∃ older, waiting p.before = some (name, older) ∧ name ∉ keyNames older := by
  unfold newEntry
  split
  next d n older hvalue hwaiting =>
    by_cases hmem : n ∈ keyNames older
    · rw [if_pos hmem]
      simp only [hvalue, hwaiting, not_mem_nil, false_iff]
      rintro ⟨-, _, heq, hfresh⟩
      obtain ⟨rfl, rfl⟩ := Prod.mk.inj (Option.some.inj heq)
      exact hfresh hmem
    · rw [if_neg hmem, mem_singleton, hvalue, hwaiting]
      constructor
      · rintro ⟨⟩
        exact ⟨rfl, older, rfl, hmem⟩
      · rintro ⟨hd, _, heq, -⟩
        obtain ⟨rfl, -⟩ := Prod.mk.inj (Option.some.inj heq)
        rw [Option.some.inj hd]
  next hnone =>
    refine iff_of_false not_mem_nil ?_
    rintro ⟨hvalue, older, hwaiting, -⟩
    exact hnone data name older hvalue hwaiting

/-- A property is a key of a new name and the value behind it, with separators between them at
most. -/
theorem mem_newEntry_iff {data : Data} :
    (name, data) ∈ (places cs).flatMap newEntry ↔
      ∃ older k separators c rest, cs = older ++ k :: (separators ++ c :: rest) ∧
        k.key?.map (·.1) = some name ∧ name ∉ keyNames older ∧
        (∀ s ∈ separators, IsSeparator s) ∧ c.value? = some data := by
  rw [mem_flatMap]
  constructor
  · rintro ⟨p, hp, hentry⟩
    obtain ⟨hvalue, older, hwaiting, hfresh⟩ := Place.mem_newEntry_iff.1 hentry
    obtain ⟨separators, k, hbefore, hseparators, hkey⟩ := waiting_eq_some_iff.1 hwaiting
    refine ⟨older.reverse, k, separators.reverse, p.chunk, p.after, ?_, hkey, ?_, ?_, hvalue⟩
    · rw [mem_places.1 hp, hbefore]
      simp
    · rwa [mem_keyNames_reverse]
    · exact fun s hs => hseparators s (mem_reverse.1 hs)
  · rintro ⟨older, k, separators, c, rest, rfl, hkey, hfresh, hseparators, hvalue⟩
    refine ⟨⟨separators.reverse ++ k :: older.reverse, c, rest⟩, mem_places.2 (by simp),
      Place.mem_newEntry_iff.2 ⟨hvalue, older.reverse, ?_, ?_⟩⟩
    · exact waiting_eq_some_iff.2
        ⟨_, k, rfl, fun s hs => hseparators s (mem_reverse.1 hs), hkey⟩
    · rwa [mem_keyNames_reverse]

/-- The new name that waits for its value behind some chunks, which are given last first. -/
def freshName (before : List Chunk) : List String :=
  ((waiting before).toList.filter fun k => k.1 ∉ keyNames k.2).map (·.1)

/-- Properties stand in the order of their keys. -/
theorem map_fst_newEntry_sublist (before cs : List Chunk) :
    (((placesFrom before cs).flatMap newEntry).map (·.1)).Sublist
      (freshName before ++ ((placesFrom before cs).flatMap newKey).map (·.1)) := by
  induction cs generalizing before with
  | nil => simp [placesFrom]
  | cons c cs ih =>
    have hrest := ih (c :: before)
    rw [placesFrom, flatMap_cons, flatMap_cons, map_append, map_append]
    rcases c.role_cases with ⟨name, nameRange, r, t, rfl⟩ | ⟨weak, r, t, rfl⟩ |
      ⟨data, hdata, hrole, hkey⟩
    · -- the new name waits, and the one that waited before never gets a value
      have hentry : (mk before (.key name nameRange r t) cs).newEntry = [] := rfl
      have hfresh : freshName (.key name nameRange r t :: before) =
          (mk before (.key name nameRange r t) cs).newKey.map (·.1) := by
        by_cases hmem : name ∈ keyNames before <;>
          simp [freshName, waiting, newKey, key?, hmem]
      rw [hentry]
      rw [hfresh] at hrest
      exact hrest.trans (sublist_append_right _ _)
    · exact hrest
    · have hfresh : freshName (c :: before) = [] := by simp [freshName, waiting_of_value hrole]
      have hnew : (mk before c cs).newKey = [] := by simp [newKey, hkey]
      have hentry : (mk before c cs).newEntry.map (·.1) = freshName before := by
        have hvalue : c.value? = some data := by rw [value?, hdata]; rfl
        cases hw : waiting before with
        | none => simp [newEntry, freshName, hw]
        | some k =>
          by_cases hmem : k.1 ∈ keyNames k.2 <;>
            simp [newEntry, freshName, hw, hvalue, hmem]
      rw [hfresh, nil_append] at hrest
      rw [hnew, hentry]
      exact hrest.append_left _

/-! ### Repeated keys -/

/-- Whether a finding is that of a repeated key. -/
def isRepetition (d : Diagnostic) : Bool :=
  d.kind == .duplicateKey

theorem filter_isRepetition_unfinished (cs : List Chunk) :
    (unfinished cs).filter isRepetition = [] := by
  unfold unfinished
  split <;> rfl

namespace Place

variable (p : Place)

theorem filter_isRepetition_needless : p.needless.filter isRepetition = [] := by
  unfold needless
  split <;> rfl

theorem filter_isRepetition_repeatedKey : p.repeatedKey.filter isRepetition = p.repeatedKey := by
  rw [filter_eq_self, repeatedKey, forall_mem_map]
  exact fun k _ => rfl

/-- Of all that a dict reports at a place, the repeated key. -/
theorem filter_isRepetition_inDict : p.inDict.filter isRepetition = p.repeatedKey := by
  have hnone : p.chunk.role ≠ .key → p.repeatedKey = [] := by
    intro hrole
    simp [repeatedKey, key?_of_role_ne hrole]
  have hvalue : isRepetition (expectedValue p.chunk) = false := rfl
  have hseparator : isRepetition (expectedSeparator (items p.before).head? p.chunk) = false :=
    rfl
  have hkey : isRepetition (expectedKey p.chunk) = false := rfl
  have hunfixed : isRepetition (expectedSeparatorUnfixed p.chunk) = false := rfl
  have hstray : isRepetition (straySeparator p.chunk) = false := rfl
  cases hrole : p.chunk.role with
  | key =>
    cases hs : standing p.before <;>
      simp [inDict, misplacedKey, hrole, hs, p.filter_isRepetition_repeatedKey, hvalue, hseparator]
  | value =>
    rw [hnone (by simp [hrole])]
    cases hs : standing p.before <;> simp [inDict, hrole, hs, hkey, hunfixed]
  | newline =>
    rw [hnone (by simp [hrole])]
    cases hs : standing p.before with
    | key => simp [inDict, hrole, hs, hvalue]
    | _ => simpa [inDict, hrole, hs] using p.filter_isRepetition_needless
  | comma =>
    rw [hnone (by simp [hrole])]
    cases hs : standing p.before with
    | key => simp [inDict, hrole, hs, hvalue]
    | item => simpa [inDict, hrole, hs] using p.filter_isRepetition_needless
    | gap =>
      simp only [inDict, hrole, hs]
      split
      · simp [hstray]
      · exact p.filter_isRepetition_needless

end Place

/-- **First occurrences are kept.** Whatever chunks stand in a dict, its key ranges have each name
that is written once, in the order in which the names come first, and with the place of its first
writing. Apart from what is found inside the values, there is one finding for each further writing
of a name, and no other of that kind. The dict maps a name to a value exactly if the first key of
that name is followed by nothing but separators and then by the value. The properties stand in the
order of their keys and of their values, so in particular each of them has its key among the key
ranges. -/
theorem dict_keeps_first_occurrences (cs : List Chunk) :
    ∃ entries keyRanges found, dict (items cs) = (.dict entries keyRanges, found) ∧
      keyRanges.map (·.1) = (keyNames cs).eraseDups ∧
      (∀ k ∈ keyRanges, (cs.filterMap key?).lookup k.1 = some k.2) ∧
      found = (places cs).flatMap (fun p => p.inDict ++ p.chunk.problems) ++ unfinished cs ∧
      ((places cs).flatMap inDict ++ unfinished cs).filter isRepetition =
        (places cs).flatMap repeatedKey ∧
      (∀ name data, (name, data) ∈ entries ↔
        ∃ older k separators c rest, cs = older ++ k :: (separators ++ c :: rest) ∧
          k.key?.map (·.1) = some name ∧ name ∉ keyNames older ∧
          (∀ s ∈ separators, IsSeparator s) ∧ c.value? = some data) ∧
      (entries.map (·.1)).Sublist (keyRanges.map (·.1)) ∧
      (entries.map (·.2)).Sublist (cs.filterMap value?) := by
  refine ⟨_, _, _, dict_eq cs, ?_, fun k => lookup_of_mem_newKey, rfl, ?_,
    fun _ _ => mem_newEntry_iff, map_fst_newEntry_sublist [] cs, ?_⟩
  · rw [places, map_fst_newKey, filter_eq_self.2 (by simp)]
  · rw [filter_append, filter_isRepetition_unfinished, append_nil, filter_flatMap]
    simp only [filter_isRepetition_inDict]
  · have hvalues := children_contents_sublist .dict cs
    rw [contents, dict_eq] at hvalues
    exact hvalues

end Sequence

end TypedNotation
