import TypedNotation.Proofs.DeclarationLanguage
import TypedNotation.TypeIndex

/-!
# The index of types is closed

An index is made in two passes. The first gives every name its own entry, from the declarations of
that name and the set of all names (`TypeIndex.collect`); the second takes back the entries that are
references leading to no type (`TypeIndex.markLoops`).

* A type that was read refers to declared names only, because it has passed the check against the
  type of declarations, so no lookup that starts inside the index leaves it.
* The second pass judges every reference by the entries of the first one and then changes some of
  them. What a name leads to is changed only if the way meets a name that was taken back, and then
  the name itself is taken back (`follow_markLoops`).

For the second point, a name in the middle of a chain may be followed further than one that leads to
it. So a defect that is seen from the middle must be seen from the start, with fewer steps left
(`exists_follow_eq_defective`).
-/

namespace TypedNotation

open List TypeSpec

namespace TypeSpec

/-! ### Following names -/

variable {r : Resolver} {spec resolved : TypeSpec} {issue : ResolutionIssue} {hops : Nat}

theorem follow_of_ne_ref (r : Resolver) (hops : Nat) (h : ∀ name, spec ≠ ref name) :
    follow r hops spec = .ok spec := by
  cases spec with
  | ref name => exact absurd rfl (h name)
  | _ => cases hops <;> rfl

/-- What names lead to is no name. -/
theorem ne_ref_of_follow (h : follow r hops spec = .ok resolved) (name : String) :
    resolved ≠ ref name := by
  induction hops generalizing spec with
  | zero =>
    cases spec with
    | ref name' => cases h
    | _ =>
      cases h
      rintro ⟨⟩
  | succ hops ih =>
    cases spec with
    | ref name' =>
      rw [follow] at h
      cases hname : r name' with
      | error issue => simp [hname] at h
      | ok next => exact ih (by simpa [hname] using h)
    | _ =>
      cases h
      rintro ⟨⟩

/-- A defect that is met with some steps is met with fewer. -/
theorem exists_follow_eq_defective {name : String} {more : Nat} (hle : hops ≤ more)
    (h : follow r more spec = .error (.defectiveDeclaration name)) :
    ∃ name', follow r hops spec = .error (.defectiveDeclaration name') := by
  induction hops generalizing spec more with
  | zero =>
    cases spec with
    | ref name' => exact ⟨name', rfl⟩
    | _ => simp [follow_of_ne_ref] at h
  | succ hops ih =>
    obtain ⟨more, rfl⟩ : ∃ m, more = m + 1 := ⟨more - 1, by omega⟩
    cases spec with
    | ref name' =>
      rw [follow] at h ⊢
      cases hname : r name' with
      | error issue => exact ⟨name, by simpa [hname] using h⟩
      | ok next => exact ih (Nat.le_of_succ_le_succ hle) (by simpa [hname] using h)
    | _ => simp [follow_of_ne_ref] at h

/-- Names that lead to no type end at a name without one, or the way is too long. If all names that
occur are of one sort, the last one is. -/
theorem follow_eq_error {P : String → Prop} (hspec : ∀ name ∈ spec.refs, P name)
    (hr : ∀ name next, P name → r name = .ok next → ∀ name' ∈ next.refs, P name')
    (h : follow r hops spec = .error issue) :
    (∃ name, issue = .defectiveDeclaration name) ∨ ∃ name, P name ∧ r name = .error issue := by
  induction hops generalizing spec with
  | zero =>
    cases spec with
    | ref name =>
      cases h
      exact .inl ⟨name, rfl⟩
    | _ => cases h
  | succ hops ih =>
    cases spec with
    | ref name =>
      have hname : P name := hspec name (by simp [refs])
      rw [follow] at h
      cases hn : r name with
      | error issue' =>
        obtain rfl : issue' = issue := by simpa [hn] using h
        exact .inr ⟨name, hname, hn⟩
      | ok next => exact ih (hr name next hname hn) (by simpa [hn] using h)
    | _ => cases h

end TypeSpec

namespace TypeIndex

/-! ### Names -/

variable {declarations : List (String × String)} {name : String}

theorem mem_firsts_names :
    name ∈ (firsts declarations).map (·.1) ↔ name ∈ declarations.map (·.1) := by
  induction declarations with
  | nil => rfl
  | cons d rest ih =>
    rw [firsts, map_cons, map_cons, mem_cons, mem_cons, ← ih]
    by_cases h : name = d.1 <;> simp [h]

/-- The names stand in the order of their first declarations. -/
theorem firsts_names_pairwise (declarations : List (String × String)) :
    ((firsts declarations).map (·.1)).Pairwise fun a b =>
      (declarations.map (·.1)).idxOf a < (declarations.map (·.1)).idxOf b := by
  induction declarations with
  | nil => exact .nil
  | cons d rest ih =>
    rw [firsts, map_cons, map_cons, pairwise_cons]
    -- in front of all others, a name moves the places of the others by one
    have hidx : ∀ e ∈ (firsts rest).filter (·.1 != d.1),
        (d.1 :: rest.map (·.1)).idxOf e.1 = (rest.map (·.1)).idxOf e.1 + 1 := by
      intro e he
      have hne : e.1 ≠ d.1 := by simpa using (mem_filter.1 he).2
      simp [idxOf_cons, beq_false_of_ne hne.symm]
    constructor
    · intro a ha
      obtain ⟨e, he, rfl⟩ := mem_map.1 ha
      rw [hidx e he, idxOf_cons_self]
      exact Nat.succ_pos _
    · rw [pairwise_map] at ih ⊢
      refine (ih.filter _).imp_of_mem fun {a b} ha hb hlt => ?_
      rw [hidx a ha, hidx b hb]
      exact Nat.succ_lt_succ hlt

theorem names_markLoops (x : TypeIndex) : x.markLoops.names = x.names := by
  simp [names, markLoops, Function.comp_def]

theorem names_collect (declarations : List (String × String)) :
    (collect declarations).names = (firsts declarations).map (·.1) := by
  simp [names, collect, Function.comp_def]

theorem names_build (declarations : List (String × String)) :
    (build declarations).names = (firsts declarations).map (·.1) := by
  rw [build, names_markLoops, names_collect]

theorem nodup_names_build (declarations : List (String × String)) :
    (build declarations).names.Nodup := by
  rw [names_build]
  refine (firsts_names_pairwise declarations).imp ?_
  rintro a _ hlt rfl
  exact Nat.lt_irrefl _ hlt

/-! ### Entries -/

variable {x : TypeIndex} {entry : Except ResolutionIssue TypeSpec} {spec : TypeSpec}

/-- The entry of a name, given its first text. -/
def entryOf (declarations : List (String × String)) (name text : String) :
    Except ResolutionIssue TypeSpec :=
  if isConflicting declarations name then .error (.conflictingDeclarations name)
  else
    match typeOfText? ((firsts declarations).map (·.1)) text with
    | some spec => .ok spec
    | none => .error (.defectiveDeclaration name)

/-- An entry comes from one of the texts. -/
theorem mem_collect (h : (name, entry) ∈ (collect declarations).entries) :
    ∃ text, entry = entryOf declarations name text := by
  obtain ⟨⟨name, text⟩, -, heq⟩ := mem_map.1 h
  obtain ⟨rfl, rfl⟩ := Prod.mk.inj heq
  exact ⟨text, rfl⟩

/-- An entry is kept or taken back. -/
theorem mem_markLoops (h : (name, entry) ∈ x.markLoops.entries) :
    ∃ old, (name, old) ∈ x.entries ∧
      entry = if x.isLooping name old then .error (.defectiveDeclaration name) else old := by
  obtain ⟨⟨name, old⟩, hmem, heq⟩ := mem_map.1 h
  obtain ⟨rfl, rfl⟩ := Prod.mk.inj heq
  exact ⟨old, hmem, rfl⟩

/-- Only a reference can lead to no type. -/
theorem isLooping_iff :
    x.isLooping name entry = true ↔ (∃ next, entry = .ok (.ref next)) ∧
      ∃ last, (ref name).resolve x.resolver = .error (.defectiveDeclaration last) := by
  unfold isLooping
  split
  next next =>
    split
    next last hlast => simp [hlast]
    next hother => simpa using hother
  next hother => simpa using fun next h => absurd h (hother next)

theorem resolver_eq_ok_iff_lookup :
    x.resolver name = .ok spec ↔ x.entries.lookup name = some (.ok spec) := by
  unfold resolver
  cases x.entries.lookup name <;> simp

theorem resolver_eq_ok_iff (hx : x.names.Nodup) :
    x.resolver name = .ok spec ↔ (name, .ok spec) ∈ x.entries := by
  rw [← Ordered.lookup_eq_some_iff hx, resolver_eq_ok_iff_lookup]

theorem lookup_markLoops (x : TypeIndex) (name : String) :
    x.markLoops.entries.lookup name = (x.entries.lookup name).map fun e =>
      if x.isLooping name e then .error (.defectiveDeclaration name) else e :=
  Ordered.lookup_map (fun n e =>
    if x.isLooping n e then Except.error (ResolutionIssue.defectiveDeclaration n)
      else e) x.entries name

/-- A name leads where it did, or is defective. -/
theorem resolver_markLoops (x : TypeIndex) (name : String) :
    x.markLoops.resolver name =
      if x.isLooping name (x.resolver name) then .error (.defectiveDeclaration name)
      else x.resolver name := by
  rw [resolver, lookup_markLoops, resolver]
  cases x.entries.lookup name with
  | none => simp [isLooping]
  | some e => rfl

/-! ### The second pass -/

/-- What a type leads to without a defect, it leads to after the second pass as well. -/
theorem follow_markLoops {hops : Nat} (hhops : hops ≤ maxHops)
    (h : ∀ last, spec.follow x.resolver hops ≠ .error (.defectiveDeclaration last)) :
    spec.follow x.markLoops.resolver hops = spec.follow x.resolver hops := by
  induction hops generalizing spec with
  | zero =>
    cases spec with
    | ref name => exact absurd rfl (h name)
    | _ => rfl
  | succ hops ih =>
    cases spec with
    | ref name =>
      have hkept : x.markLoops.resolver name = x.resolver name := by
        rw [resolver_markLoops, if_neg]
        intro hlooping
        -- the defect is seen from here, though fewer steps may be left than the name has of its own
        obtain ⟨-, last, hlast⟩ := isLooping_iff.1 hlooping
        obtain ⟨last', hlast'⟩ := exists_follow_eq_defective hhops hlast
        exact h last' hlast'
      rw [follow] at h
      rw [follow, follow, hkept]
      cases hname : x.resolver name with
      | error issue => rfl
      | ok next =>
        simp only [hname] at h
        exact ih (Nat.le_of_succ_le hhops) h
    | _ => rfl

/-- A name that has a type after the second pass leads to no defect. -/
theorem resolve_markLoops_ne_defective (h : x.markLoops.resolver name = .ok spec) (last : String) :
    (ref name).resolve x.markLoops.resolver ≠ .error (.defectiveDeclaration last) := by
  rw [resolver_markLoops] at h
  split at h
  next => cases h
  next hlooping =>
    have hold : ∀ last, (ref name).resolve x.resolver ≠
        .error (.defectiveDeclaration last) := by
      intro last hlast
      by_cases href : ∃ next, spec = .ref next
      · obtain ⟨next, rfl⟩ := href
        exact hlooping (isLooping_iff.2 ⟨⟨next, h⟩, last, hlast⟩)
      · rw [resolve, maxHops, follow, h] at hlast
        simp [follow_of_ne_ref x.resolver 63 (not_exists.1 href)] at hlast
    rw [resolve, follow_markLoops (Nat.le_refl _) hold]
    exact hold last

/-! ### The index of some declarations -/

/-- A conflict is a name that is declared twice. -/
theorem isConflicting_iff :
    isConflicting declarations name = true ↔ 2 ≤ (declarations.map (·.1)).count name := by
  simp [isConflicting, List.count, countP_map, Function.comp_def, Nat.lt_iff_add_one_le]

/-- A name has an issue of its own, or the type that the text of a declaration describes. -/
theorem mem_build_cases (h : (name, entry) ∈ (build declarations).entries) :
    isConflicting declarations name = true ∧ entry = .error (.conflictingDeclarations name) ∨
    isConflicting declarations name = false ∧ entry = .error (.defectiveDeclaration name) ∨
    isConflicting declarations name = false ∧ ∃ text spec,
      typeOfText? ((firsts declarations).map (·.1)) text = some spec ∧ entry = .ok spec := by
  obtain ⟨old, hold, rfl⟩ := mem_markLoops h
  obtain ⟨text, rfl⟩ := mem_collect hold
  cases hconflict : isConflicting declarations name with
  | true => simp [entryOf, isLooping, hconflict]
  | false =>
    cases hspec : typeOfText? ((firsts declarations).map (·.1)) text with
    | none => simp [entryOf, isLooping, hconflict, hspec]
    | some spec =>
      simp only [entryOf, hconflict, hspec, Bool.false_eq_true, if_false, false_and, false_or,
        true_and]
      split
      · exact .inl rfl
      · exact .inr ⟨text, spec, hspec, rfl⟩

/-- A type that was read refers to declared names. -/
theorem refs_of_typeOfText? {declared : List String} {text : String}
    (h : typeOfText? declared text = some spec) : ∀ name ∈ spec.refs, name ∈ declared := by
  unfold typeOfText? at h
  split at h
  next data _ =>
    split at h
    next hok =>
      have htype := (Declaration.check_root_ok_iff declared data).1 hok
      obtain ⟨spec', hspec', hrefs⟩ := (Declaration.isType_iff_ofValue? declared data.value).1 htype
      obtain rfl := Option.some.inj (hspec'.symm.trans h)
      exact hrefs
    next => cases h
  next => cases h

/-- The types in an index refer to its names. -/
theorem mem_names_of_mem_refs (h : (name, .ok spec) ∈ (build declarations).entries) :
    ∀ other ∈ spec.refs, other ∈ (build declarations).names := by
  rcases mem_build_cases h with ⟨-, ⟨⟩⟩ | ⟨-, ⟨⟩⟩ | ⟨-, text, spec, hspec, ⟨⟩⟩
  rw [names_build]
  exact refs_of_typeOfText? hspec

/-- A name of the index that leads to no type leads to a defect or to conflicting declarations. -/
theorem resolve_build_eq_error {issue : ResolutionIssue} (hname : name ∈ (build declarations).names)
    (h : (ref name).resolve (build declarations).resolver = .error issue) :
    (∃ last, issue = .defectiveDeclaration last) ∨ ∃ last, issue = .conflictingDeclarations last ∧
      isConflicting declarations last = true := by
  have hnodup := nodup_names_build declarations
  have hclosed : ∀ name next, name ∈ (build declarations).names →
      (build declarations).resolver name = .ok next →
        ∀ other ∈ next.refs, other ∈ (build declarations).names :=
    fun name next _ hnext => mem_names_of_mem_refs ((resolver_eq_ok_iff hnodup).1 hnext)
  rcases follow_eq_error (by simpa [refs] using hname) hclosed h with
    hdefective | ⟨last, hlast, hissue⟩
  · exact .inl hdefective
  · -- the last name has an entry, so its issue is that of the entry
    obtain ⟨⟨last, entry⟩, hmem, rfl⟩ := mem_map.1 hlast
    have hentry : entry = .error issue := by
      rw [resolver, (Ordered.lookup_eq_some_iff hnodup).2 hmem] at hissue
      exact hissue
    subst hentry
    rcases mem_build_cases hmem with ⟨hconflict, ⟨⟩⟩ | ⟨-, ⟨⟩⟩ | ⟨-, text, spec, -, ⟨⟩⟩
    · exact .inr ⟨last, rfl, hconflict⟩
    · exact .inl ⟨last, rfl⟩

/-- **The index of any declarations is closed and consistent.** Its names are the declared ones,
each once and in the order of their first declarations. The entry of a name says that there are
conflicting declarations exactly if the name is declared more than once. A type in the index refers,
however deep, to names of the index only. A name that has a type leads to one that is no reference,
unless it leads to a name that is declared more than once: it is never missed and never found
defective. -/
theorem built_index_is_closed (declarations : List (String × String)) :
    let index := build declarations
    let declared := declarations.map (·.1)
    (index.names.Nodup ∧ (∀ name, name ∈ index.names ↔ name ∈ declared) ∧
      index.names.Pairwise fun a b => declared.idxOf a < declared.idxOf b) ∧
    (∀ name entry, (name, entry) ∈ index.entries →
      (entry = .error (.conflictingDeclarations name) ↔ 2 ≤ declared.count name) ∧
      ∀ other, entry = .error (.conflictingDeclarations other) → other = name) ∧
    ∀ name spec, (name, .ok spec) ∈ index.entries →
      (∀ other ∈ spec.refs, other ∈ index.names) ∧
      ((∃ type, (ref name).resolve index.resolver = .ok type ∧
          ∀ other, type ≠ .ref other) ∨
        ∃ other, 2 ≤ declared.count other ∧
          (ref name).resolve index.resolver =
            .error (.conflictingDeclarations other)) := by
  intro index declared
  refine ⟨⟨nodup_names_build declarations, fun name => ?_, ?_⟩, fun name entry h => ?_,
    fun name spec h => ⟨mem_names_of_mem_refs h, ?_⟩⟩
  · rw [names_build]
    exact mem_firsts_names
  · rw [names_build]
    exact firsts_names_pairwise declarations
  · rw [← isConflicting_iff]
    rcases mem_build_cases h with ⟨hconflict, rfl⟩ | ⟨hconflict, rfl⟩ | ⟨hconflict, _, _, -, rfl⟩
    all_goals simp [hconflict, eq_comm]
  · have hok : index.resolver name = .ok spec :=
      (resolver_eq_ok_iff (nodup_names_build declarations)).2 h
    cases hresolve : (ref name).resolve index.resolver with
    | ok type => exact .inl ⟨type, rfl, ne_ref_of_follow hresolve⟩
    | error issue =>
      rcases resolve_build_eq_error (mem_map_of_mem h) hresolve with
        ⟨last, rfl⟩ | ⟨last, rfl, hconflict⟩
      · exact absurd hresolve (resolve_markLoops_ne_defective hok last)
      · exact .inr ⟨last, isConflicting_iff.1 hconflict, rfl⟩

/-- Of the four names declared here, `A` is declared twice and `D` refers to itself. `B` is a
reference to `A`, and `C` refers to `B` and to itself inside a tuple. -/
theorem built_index_is_closed_of_mixed :
    let declarations := [("A", "#int"), ("B", "#ref(#A)"), ("A", "#float"),
      ("C", "#tuple[#ref(#B), #ref(#C)]"), ("D", "#ref(#D)")]
    let index := build declarations
    index.names = ["A", "B", "C", "D"] ∧
    (∃ spec, ("C", .ok spec) ∈ index.entries ∧ spec.refs = ["B", "C"] ∧
      ∀ other ∈ spec.refs, other ∈ index.names) ∧
    ∃ spec, ("B", .ok spec) ∈ index.entries ∧ ∃ other, 2 ≤ (declarations.map (·.1)).count other ∧
      (ref "B").resolve index.resolver = .error (.conflictingDeclarations other) := by
  intro declarations index
  have hspec : ∀ name refs, (index.entries.any fun e =>
      e.1 == name && e.2.toOption.any (·.refs == refs)) = true →
      ∃ spec, (name, .ok spec) ∈ index.entries ∧ spec.refs = refs := by
    intro name refs h
    obtain ⟨⟨name', entry⟩, hmem, htest⟩ := any_eq_true.1 h
    cases entry <;> simp [Except.toOption] at htest
    obtain ⟨rfl, rfl⟩ := htest
    exact ⟨_, hmem, rfl⟩
  obtain ⟨c, hc, hrefs⟩ := hspec "C" ["B", "C"] (by decide +kernel)
  obtain ⟨b, hb, -⟩ := hspec "B" ["A"] (by decide +kernel)
  obtain ⟨-, -, hclosed⟩ := built_index_is_closed declarations
  refine ⟨by decide +kernel, ⟨c, hc, hrefs, (hclosed "C" c hc).1⟩, b, hb, ?_⟩
  rcases (hclosed "B" b hb).2 with ⟨type, htype, -⟩ | hconflict
  · have hfails : ((ref "B").resolve index.resolver).toBool = false := by decide +kernel
    rw [htype] at hfails
    cases hfails
  · exact hconflict

end TypeIndex

end TypedNotation
