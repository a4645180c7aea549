import TypedNotation.Proofs.CanonicalForm
import TypedNotation.Proofs.IndexClosure

/-!
# Chains of references

A declaration may be nothing but a reference, and then its type is that of another name, which may
be declared by a reference again. `TypeIndex.Leads` counts the references that lead from one name to
another. The index follows at most `TypeSpec.maxHops` of them, so of a name that is declared once,
by a text that describes a type, it can say three things:

* the chain ends, soon enough, at a name that has a type of its own: the name has that type;
* the chain ends, soon enough, at a name that is declared more than once: the name has no type, and
  the reason is at the other end;
* the chain ends at a defective declaration, or runs in a circle, or is too long: the name is
  defective.

The last case is where a chain that is long counts like one that never ends
(`TypeIndex.reference_is_defective_iff`).
-/

namespace TypedNotation

open List TypeSpec Value Ordered Document

namespace TypeIndex

variable {declarations : List (String × String)} {name other : String} {spec : TypeSpec}

/-! ### What a name declares -/

/-- A text describes a type exactly if its data can be read as one that refers to declared names. -/
theorem typeOfText?_eq_some_iff {declared : List String} {text : String} :
    typeOfText? declared text = some spec ↔ ∃ data, (parse text).data = some data ∧
      ofValue? data.value = some spec ∧ ∀ name ∈ spec.refs, name ∈ declared := by
  unfold typeOfText?
  cases hdata : (parse text).data with
  | none => simp
  | some data =>
    have hcheck := Declaration.check_root_ok_iff declared data
    rw [Declaration.isType_iff_ofValue?] at hcheck
    simp only [Option.some.injEq, exists_eq_left']
    constructor
    · intro h
      split at h
      next hok =>
        obtain ⟨spec', hspec', hrefs⟩ := hcheck.1 hok
        obtain rfl : spec' = spec := Option.some.inj (hspec'.symm.trans h)
        exact ⟨h, hrefs⟩
      next => cases h
    · rintro ⟨hspec, hrefs⟩
      rw [if_pos (hcheck.2 ⟨spec, hspec, hrefs⟩), hspec]

/-- The name is declared once, by a text whose data passes the check against the type of
declarations and is read as the given type. -/
def Describes (declarations : List (String × String)) (name : String) (spec : TypeSpec) : Prop :=
  (declarations.map (·.1)).count name = 1 ∧ ∃ text data, (name, text) ∈ declarations ∧
    (parse text).data = some data ∧
    (data.check (Declaration.resolver (declarations.map (·.1))) Declaration.root).ok = true ∧
    ofValue? data.value = some spec

/-- The name is declared once, by a text that has no data or whose data does not pass the check
against the type of declarations. -/
def IsDefective (declarations : List (String × String)) (name : String) : Prop :=
  (declarations.map (·.1)).count name = 1 ∧ ∃ text, (name, text) ∈ declarations ∧
    ∀ data, (parse text).data = some data →
      (data.check (Declaration.resolver (declarations.map (·.1))) Declaration.root).ok = false

theorem lookup_firsts (declarations : List (String × String)) (name : String) :
    (firsts declarations).lookup name = declarations.lookup name := by
  induction declarations with
  | nil => rfl
  | cons d rest ih =>
    have hfilter : ∀ l : List (String × String), name ≠ d.1 →
        (l.filter (·.1 != d.1)).lookup name = l.lookup name := by
      intro l hne
      induction l with
      | nil => rfl
      | cons e l ih =>
        by_cases he : e.1 = d.1
        · rw [filter_cons_of_neg (by simp [he]), ih, lookup_cons,
            if_neg (by rw [he]; exact hne)]
        · rw [filter_cons_of_pos (by simp [he]), lookup_cons, lookup_cons, ih]
    rw [firsts, lookup_cons, lookup_cons]
    split
    next => rfl
    next hne => rw [hfilter _ hne, ih]

/-- The entry that a name gets from its first declaration. -/
theorem lookup_collect (declarations : List (String × String)) (name : String) :
    (collect declarations).entries.lookup name =
      (declarations.lookup name).map (entryOf declarations name) := by
  rw [← lookup_firsts]
  exact lookup_map (entryOf declarations) (firsts declarations) name

/-- A name that is declared once has one text. -/
theorem lookup_eq_some_of_count_eq_one {text : String}
    (hcount : (declarations.map (·.1)).count name = 1) (h : (name, text) ∈ declarations) :
    declarations.lookup name = some text := by
  induction declarations with
  | nil => cases h
  | cons d rest ih =>
    rw [lookup_cons]
    rw [map_cons, count_cons] at hcount
    rcases mem_cons.1 h with rfl | hrest
    · simp
    · have hpos : 0 < (rest.map (·.1)).count name :=
        count_pos_iff.2 (mem_map_of_mem hrest)
      have hne : name ≠ d.1 := by
        rintro rfl
        simp only [beq_self_eq_true, if_true] at hcount
        omega
      rw [if_neg hne]
      exact ih (by simpa [beq_false_of_ne hne.symm] using hcount) hrest

theorem typeOfText?_firsts (declarations : List (String × String)) (text : String) :
    typeOfText? ((firsts declarations).map (·.1)) text =
      typeOfText? (declarations.map (·.1)) text := by
  ext spec
  simp only [typeOfText?_eq_some_iff, mem_firsts_names]

/-! Before references are followed, a name has one of four entries. -/

/-- A name that is declared once has what its text describes. -/
theorem resolver_collect_of_mem {text : String} (hcount : (declarations.map (·.1)).count name = 1)
    (h : (name, text) ∈ declarations) :
    (collect declarations).resolver name =
      (typeOfText? (declarations.map (·.1)) text).elim (.error (.defectiveDeclaration name))
        .ok := by
  have hconflict : ¬ isConflicting declarations name = true := by
    rw [isConflicting_iff]
    omega
  rw [resolver, lookup_collect, lookup_eq_some_of_count_eq_one hcount h, Option.map_some, entryOf,
    if_neg hconflict, typeOfText?_firsts]
  cases typeOfText? (declarations.map (·.1)) text <;> rfl

theorem resolver_collect_of_describes (h : Describes declarations name spec) :
    (collect declarations).resolver name = .ok spec := by
  obtain ⟨hcount, text, data, hmem, hdata, hok, hspec⟩ := h
  rw [resolver_collect_of_mem hcount hmem, typeOfText?, hdata]
  simp [hok, hspec]

theorem Describes.unique {spec' : TypeSpec} (h : Describes declarations name spec)
    (h' : Describes declarations name spec') : spec = spec' := by
  have hok := resolver_collect_of_describes h
  rw [resolver_collect_of_describes h'] at hok
  exact (Except.ok.inj hok).symm

theorem resolver_collect_of_isDefective (h : IsDefective declarations name) :
    (collect declarations).resolver name = .error (.defectiveDeclaration name) := by
  obtain ⟨hcount, text, hmem, hfails⟩ := h
  rw [resolver_collect_of_mem hcount hmem, typeOfText?]
  cases hdata : (parse text).data with
  | none => rfl
  | some data => simp [hfails data hdata]

theorem Describes.not_isDefective (h : Describes declarations name spec) :
    ¬ IsDefective declarations name := by
  intro hdefective
  have hok := resolver_collect_of_describes h
  rw [resolver_collect_of_isDefective hdefective] at hok
  cases hok

theorem resolver_collect_of_conflict (h : 2 ≤ (declarations.map (·.1)).count name) :
    (collect declarations).resolver name = .error (.conflictingDeclarations name) := by
  have hmem : name ∈ declarations.map (·.1) := count_pos_iff.1 (by omega)
  obtain ⟨text, htext⟩ : ∃ text, declarations.lookup name = some text := by
    rw [← Option.isSome_iff_exists, ← lookup_firsts, lookup_isSome_iff]
    obtain ⟨d, hd, rfl⟩ := mem_map.1 (mem_firsts_names.2 hmem)
    exact ⟨d, hd, by simp⟩
  rw [resolver, lookup_collect, htext, Option.map_some, entryOf, if_pos (isConflicting_iff.2 h)]

theorem resolver_collect_of_not_mem (h : name ∉ declarations.map (·.1)) :
    (collect declarations).resolver name = .error (.couldNotFind name) := by
  have hlookup : declarations.lookup name = none := by
    rw [lookup_eq_none_iff]
    intro d hd
    refine bne_iff_ne.2 ?_
    rintro rfl
    exact h (mem_map_of_mem hd)
  rw [resolver, lookup_collect, hlookup, Option.map_none]

/-- A name is not declared, or in conflict, or defective of its own, or describes a type. -/
theorem declaration_cases (declarations : List (String × String)) (name : String) :
    name ∉ declarations.map (·.1) ∨ 2 ≤ (declarations.map (·.1)).count name ∨
      IsDefective declarations name ∨ ∃ spec, Describes declarations name spec := by
  by_cases hmem : name ∈ declarations.map (·.1)
  · have hpos := count_pos_iff.2 hmem
    by_cases hcount : (declarations.map (·.1)).count name = 1
    · obtain ⟨⟨_, text⟩, htext, rfl⟩ := mem_map.1 hmem
      refine .inr (.inr ?_)
      by_cases hok : ∃ data, (parse text).data = some data ∧
          (data.check (Declaration.resolver (declarations.map (·.1))) Declaration.root).ok = true
      · obtain ⟨data, hdata, hok⟩ := hok
        obtain ⟨spec, hspec, -⟩ := (Declaration.isType_iff_ofValue? _ _).1
          ((Declaration.check_root_ok_iff _ _).1 hok)
        exact .inr ⟨spec, hcount, text, data, htext, hdata, hok, hspec⟩
      · refine .inl ⟨hcount, text, htext, fun data hdata => ?_⟩
        rw [Bool.eq_false_iff]
        exact fun h => hok ⟨data, hdata, h⟩
    · exact .inr (.inl (by omega))
  · exact .inl hmem

/-- What the entry of a name tells of its declarations. -/
theorem resolver_collect_inv {entry : Except ResolutionIssue TypeSpec}
    (h : (collect declarations).resolver name = entry) :
    (∀ spec, entry = .ok spec → Describes declarations name spec) ∧
      ∀ last, entry = .error (.defectiveDeclaration last) →
        last = name ∧ IsDefective declarations name := by
  rcases declaration_cases declarations name with hmem | hcount | hdefective | ⟨spec, hspec⟩
  · rw [resolver_collect_of_not_mem hmem] at h
    simp [← h]
  · rw [resolver_collect_of_conflict hcount] at h
    simp [← h]
  · rw [resolver_collect_of_isDefective hdefective] at h
    simp [← h, hdefective]
  · rw [resolver_collect_of_describes hspec] at h
    simp [← h, hspec]

theorem resolver_collect_eq_ok_iff :
    (collect declarations).resolver name = .ok spec ↔ Describes declarations name spec :=
  ⟨fun h => (resolver_collect_inv h).1 spec rfl, resolver_collect_of_describes⟩

theorem resolver_collect_eq_defective_iff {last : String} :
    (collect declarations).resolver name = .error (.defectiveDeclaration last) ↔
      last = name ∧ IsDefective declarations name := by
  refine ⟨fun h => (resolver_collect_inv h).2 last rfl, ?_⟩
  rintro ⟨rfl, hdefective⟩
  exact resolver_collect_of_isDefective hdefective

/-- A type that is written as a value is described by its text. -/
theorem describes_source {v : Value} (hcount : (declarations.map (·.1)).count name = 1)
    (hmem : (name, v.source) ∈ declarations) (hencodable : v.isEncodable = true)
    (htype : Declaration.IsType (declarations.map (·.1)) v)
    (hspec : ofValue? v = some spec) : Describes declarations name spec := by
  obtain ⟨data, hdata, rfl, -⟩ := exists_parse_source hencodable
  exact ⟨hcount, _, data, hmem, hdata, (Declaration.check_root_ok_iff _ _).2 htype, hspec⟩

/-- A reference to a declared name describes that reference, if the name can be written as a tag. -/
theorem describes_ref (hcount : (declarations.map (·.1)).count name = 1)
    (hmem : (name, "#ref(#" ++ other ++ ")") ∈ declarations)
    (hother : other ∈ declarations.map (·.1)) (htag : isTagName other = true) :
    Describes declarations name (.ref other) := by
  have hsource : (enum "ref" (some (.tuple [.enum other none]))).source =
      "#ref(#" ++ other ++ ")" := by
    rw [← String.toList_inj]
    simp [source, sourceChars, itemSources, payloadSource,
      commaSeparated]
  refine describes_source hcount (hsource ▸ hmem) ?_ (.ref hother) rfl
  simp [isEncodable, itemsEncodable, htag, isBlock,
    show isTagName "ref" = true by decide]

/-! ### Chains -/

/-- So many references lead from one name to another, each of them all that its name declares. -/
inductive Leads (declarations : List (String × String)) : Nat → String → String → Prop
  | refl (name : String) : Leads declarations 0 name name
  | step {steps : Nat} {name next last : String} : Describes declarations name (.ref next) →
      Leads declarations steps next last → Leads declarations (steps + 1) name last

variable {steps hops : Nat} {last : String}

theorem Leads.append {more : Nat} (h : Leads declarations steps name other)
    (h' : Leads declarations more other last) : Leads declarations (steps + more) name last := by
  induction h with
  | refl name => simpa using h'
  | step hnext _ ih =>
    rw [Nat.succ_add]
    exact .step hnext (ih h')

/-- A chain can be cut short. -/
theorem Leads.cut (h : Leads declarations steps name last) (hle : hops ≤ steps) :
    ∃ other, Leads declarations hops name other := by
  induction h generalizing hops with
  | refl name =>
    obtain rfl : hops = 0 := by omega
    exact ⟨name, .refl name⟩
  | @step _ name _ _ hnext _ ih =>
    cases hops with
    | zero => exact ⟨name, .refl name⟩
    | succ hops =>
      obtain ⟨other, hother⟩ := ih (Nat.le_of_succ_le_succ hle)
      exact ⟨other, .step hnext hother⟩

/-- A name that leads to itself leads as far as one likes. -/
theorem Leads.forever (h : Leads declarations (steps + 1) name name) (hops : Nat) :
    ∃ last, Leads declarations hops name last := by
  have hround : ∀ n, Leads declarations (n * (steps + 1)) name name := by
    intro n
    induction n with
    | zero => simpa using Leads.refl name
    | succ n ih =>
      rw [Nat.succ_mul]
      exact ih.append h
  exact (hround hops).cut (Nat.le_mul_of_pos_right hops (Nat.succ_pos steps))

/-- A chain goes on as long as one likes, or it ends at a name that is no reference. -/
theorem exists_leads (declarations : List (String × String)) (hops : Nat) (name : String) :
    (∃ last, Leads declarations hops name last) ∨ ∃ steps < hops, ∃ last,
      Leads declarations steps name last ∧ ∀ next, ¬ Describes declarations last (.ref next) := by
  induction hops generalizing name with
  | zero => exact .inl ⟨name, .refl name⟩
  | succ hops ih =>
    by_cases hnext : ∃ next, Describes declarations name (.ref next)
    · obtain ⟨next, hnext⟩ := hnext
      rcases ih next with ⟨last, hlast⟩ | ⟨steps, hsteps, last, hlast, hend⟩
      · exact .inl ⟨last, .step hnext hlast⟩
      · exact .inr ⟨steps + 1, Nat.succ_lt_succ hsteps, last, .step hnext hlast, hend⟩
    · exact .inr ⟨0, Nat.succ_pos hops, name, .refl name, not_exists.1 hnext⟩

/-- No chain is longer than one that ends. -/
theorem Leads.le_of_end {more : Nat} (h : Leads declarations steps name last)
    (hend : ∀ next, ¬ Describes declarations last (.ref next))
    (h' : Leads declarations more name other) : more ≤ steps := by
  induction h generalizing more with
  | refl name =>
    cases h' with
    | refl => exact Nat.le_refl 0
    | step hnext _ => exact absurd hnext (hend _)
  | step hnext _ ih =>
    cases h' with
    | refl => exact Nat.zero_le _
    | step hnext' hrest =>
      obtain rfl := ref.inj (hnext.unique hnext')
      exact Nat.succ_le_succ (ih hend hrest)

/-! ### Following a chain -/

/-- Following a chain uses one lookup for each reference. -/
theorem follow_of_leads (h : Leads declarations steps name last) (hops : Nat) :
    follow (collect declarations).resolver (steps + hops) (.ref name) =
      follow (collect declarations).resolver hops (.ref last) := by
  induction h with
  | refl name => rw [Nat.zero_add]
  | step hnext _ ih =>
    rw [Nat.succ_add, follow, resolver_collect_of_describes hnext]
    exact ih

/-- At a name that is no reference the following ends. -/
theorem follow_of_not_ref (hops : Nat) (h : ∀ next, ¬ Describes declarations last (.ref next)) :
    follow (collect declarations).resolver (hops + 1) (.ref last) =
      (collect declarations).resolver last := by
  rw [follow]
  cases hlast : (collect declarations).resolver last with
  | error issue => rfl
  | ok spec =>
    refine follow_of_ne_ref _ _ ?_
    rintro next rfl
    exact h next (resolver_collect_eq_ok_iff.1 hlast)

/-- A chain that ends soon enough gives what its last name has. -/
theorem follow_collect_of_leads (h : Leads declarations steps name last) (hsteps : steps < hops)
    (hend : ∀ next, ¬ Describes declarations last (.ref next)) :
    follow (collect declarations).resolver hops (.ref name) =
      (collect declarations).resolver last := by
  obtain ⟨left, rfl⟩ : ∃ left, hops = steps + (left + 1) := ⟨hops - steps - 1, by omega⟩
  rw [follow_of_leads h, follow_of_not_ref left hend]

/-- A chain that is too long gives a defect. -/
theorem resolve_collect_of_long (h : Leads declarations maxHops name last) :
    (ref name).resolve (collect declarations).resolver =
      .error (.defectiveDeclaration last) := by
  have hfollow := follow_of_leads h 0
  rw [Nat.add_zero] at hfollow
  rw [resolve, hfollow]
  rfl

/-- A name leads to a defect if its chain is too long or ends at a defective declaration. -/
theorem resolve_collect_eq_defective_iff :
    (∃ last, (ref name).resolve (collect declarations).resolver =
        .error (.defectiveDeclaration last)) ↔
      (∃ last, Leads declarations maxHops name last) ∨
        ∃ steps last, Leads declarations steps name last ∧ IsDefective declarations last := by
  constructor
  · rintro ⟨defect, hdefect⟩
    rcases exists_leads declarations maxHops name
      with hlong | ⟨steps, hsteps, last, hlast, hend⟩
    · exact .inl hlong
    · rw [resolve, follow_collect_of_leads hlast hsteps hend,
        resolver_collect_eq_defective_iff] at hdefect
      exact .inr ⟨steps, last, hlast, hdefect.2⟩
  · rintro (⟨last, hlast⟩ | ⟨steps, last, hlast, hdefective⟩)
    · exact ⟨last, resolve_collect_of_long hlast⟩
    · -- seen from nearby, the defect is that of the last name; from further away the chain is
      -- too long
      have hnear : follow (collect declarations).resolver (steps + 1) (.ref name) =
          .error (.defectiveDeclaration last) := by
        rw [follow_of_leads hlast, follow, resolver_collect_of_isDefective hdefective]
      by_cases hle : maxHops ≤ steps + 1
      · exact exists_follow_eq_defective hle hnear
      · refine ⟨last, ?_⟩
        rw [resolve, follow_collect_of_leads hlast (by omega),
          resolver_collect_of_isDefective hdefective]
        exact fun next hnext => hnext.not_isDefective hdefective

/-! ### The index -/

theorem lookup_build_of_describes (h : Describes declarations name spec) :
    (build declarations).entries.lookup name = some
      (if (collect declarations).isLooping name (.ok spec) then .error (.defectiveDeclaration name)
        else .ok spec) := by
  rw [build, lookup_markLoops, resolver_eq_ok_iff_lookup.1 (resolver_collect_of_describes h),
    Option.map_some]

/-- A name that describes a type is taken back if it leads to a defect. -/
theorem mem_build_defective_iff (h : Describes declarations name spec) :
    (name, .error (.defectiveDeclaration name)) ∈ (build declarations).entries ↔
      ∃ last, (ref name).resolve (collect declarations).resolver =
        .error (.defectiveDeclaration last) := by
  rw [← lookup_eq_some_iff (nodup_names_build declarations), lookup_build_of_describes h]
  constructor
  · intro hentry
    split at hentry
    next hlooping => exact (isLooping_iff.1 hlooping).2
    next => cases hentry
  · rintro ⟨last, hlast⟩
    -- what leads to a defect is a reference, since any other type is reached at once
    have href : ∃ next, spec = .ref next := by
      by_contra hne
      rw [resolve, maxHops, follow,
        resolver_collect_of_describes h] at hlast
      simp [follow_of_ne_ref _ 63 (not_exists.1 hne)] at hlast
    obtain ⟨next, rfl⟩ := href
    rw [if_pos (isLooping_iff.2 ⟨⟨next, rfl⟩, last, hlast⟩)]

/-- A name of the index that has no type leads to no type. -/
theorem resolve_build_of_mem {issue : ResolutionIssue}
    (h : (name, .error issue) ∈ (build declarations).entries) :
    (ref name).resolve (build declarations).resolver = .error issue := by
  rw [resolve, maxHops, follow, resolver,
    (lookup_eq_some_iff (nodup_names_build declarations)).2 h]

/-- The index gives the same as long as the chain ends soon enough and not at a defect. -/
theorem follow_build_of_leads (h : Leads declarations steps name last) (hsteps : steps < hops)
    (hhops : hops ≤ maxHops) (hend : ∀ next, ¬ Describes declarations last (.ref next))
    (hlast : ¬ IsDefective declarations last) :
    follow (build declarations).resolver hops (.ref name) =
      (collect declarations).resolver last := by
  have hfollow := follow_collect_of_leads h hsteps hend
  rw [build, follow_markLoops hhops, hfollow]
  intro defect hdefect
  rw [hfollow, resolver_collect_eq_defective_iff] at hdefect
  exact hlast hdefect.2

/-- **References that lead nowhere.** Of a name that is declared once, by a text whose data passes
the check, the index says that it is defective exactly if the references that start at it come back
to a name, or reach a name whose own declaration is defective, or are more than can be followed.
References that end in a type that is no reference give that type if they are fewer than the limit,
and otherwise they are more than can be followed, though they may not come back to any name. -/
theorem reference_is_defective_iff (h : Describes declarations name spec) :
    let index := build declarations
    ((name, .error (.defectiveDeclaration name)) ∈ index.entries ↔
      (∃ steps round last, Leads declarations steps name last ∧
          Leads declarations (round + 1) last last) ∨
        (∃ steps last, Leads declarations steps name last ∧ IsDefective declarations last) ∨
        ∃ last, Leads declarations maxHops name last) ∧
    ∀ steps last type, Leads declarations steps name last → Describes declarations last type →
      (∀ other, type ≠ .ref other) →
      (ref name).resolve index.resolver =
        if steps < maxHops then .ok type else .error (.defectiveDeclaration name) := by
  intro index
  have hdefective := mem_build_defective_iff h
  rw [resolve_collect_eq_defective_iff] at hdefective
  constructor
  · rw [hdefective]
    constructor
    · rintro (hlong | hreaches)
      · exact .inr (.inr hlong)
      · exact .inr (.inl hreaches)
    · rintro (⟨steps, round, last, hlast, hround⟩ | hreaches | hlong)
      · obtain ⟨end_, hend⟩ := hround.forever maxHops
        exact .inl ((hlast.append hend).cut (Nat.le_add_left _ _))
      · exact .inr hreaches
      · exact .inl hlong
  · intro steps last type hlast htype hne
    have hend : ∀ next, ¬ Describes declarations last (.ref next) := fun next hnext =>
      hne next (htype.unique hnext)
    split
    next hsteps =>
      rw [resolve, follow_build_of_leads hlast hsteps
        (Nat.le_refl _) hend htype.not_isDefective, resolver_collect_of_describes htype]
    next hsteps =>
      exact resolve_build_of_mem (hdefective.2 (.inl (hlast.cut (Nat.le_of_not_lt hsteps))))

/-- `A` refers to `B`, and `B` and `C` refer to each other, so that `A` is defective though it is
not in the circle. `D` refers to `E`, which is an integer. -/
theorem reference_is_defective_iff_of_circle :
    let declarations := [("A", "#ref(#B)"), ("B", "#ref(#C)"), ("C", "#ref(#B)"), ("D", "#ref(#E)"),
      ("E", "#int")]
    let index := build declarations
    (Describes declarations "A" (.ref "B") ∧
      ("A", .error (.defectiveDeclaration "A")) ∈ index.entries) ∧
    Describes declarations "D" (.ref "E") ∧
      (ref "D").resolve index.resolver = .ok (.primitive .int) := by
  intro declarations index
  have hA : Describes declarations "A" (.ref "B") :=
    describes_ref (by decide) (by decide) (by decide) (by decide)
  have hB : Describes declarations "B" (.ref "C") :=
    describes_ref (by decide) (by decide) (by decide) (by decide)
  have hC : Describes declarations "C" (.ref "B") :=
    describes_ref (by decide) (by decide) (by decide) (by decide)
  have hD : Describes declarations "D" (.ref "E") :=
    describes_ref (by decide) (by decide) (by decide) (by decide)
  have hE : Describes declarations "E" (.primitive .int) :=
    describes_source (v := .enum "int" none) (by decide) (by decide) (by decide)
      (.primitive (by decide)) rfl
  refine ⟨⟨hA, (reference_is_defective_iff hA).1.2 (.inl ⟨1, 1, "B", .step hA (.refl _),
    .step hB (.step hC (.refl _))⟩)⟩, hD, ?_⟩
  rw [(reference_is_defective_iff hD).2 1 "E" _ (.step hD (.refl _)) hE (by rintro _ ⟨⟩)]
  rfl

/-! ### A chain at the limit -/

/-- The names `T0` to `T64`: each but the last refers to the next one, and the last is an
integer. -/
def longChain : List (String × String) :=
  (List.range 64).map
    (fun i => ("T" ++ toString i, "#ref(#" ++ ("T" ++ toString (i + 1)) ++ ")")) ++
      [("T64", "#int")]

theorem count_longChain :
    ∀ i ∈ List.range 65, (longChain.map (·.1)).count ("T" ++ toString i) = 1 := by
  decide +kernel

theorem describes_longChain {i : Nat} (hi : i < 64) :
    Describes longChain ("T" ++ toString i) (.ref ("T" ++ toString (i + 1))) := by
  have htags : ∀ i ∈ List.range 65, isTagName ("T" ++ toString i) = true := by decide +kernel
  have hnext : ("T" ++ toString (i + 1)) ∈ longChain.map (·.1) := by
    refine count_pos_iff.1 ?_
    rw [count_longChain (i + 1) (mem_range.2 (by omega))]
    decide
  exact describes_ref (count_longChain i (mem_range.2 (by omega)))
    (mem_append_left _ (mem_map.2 ⟨i, mem_range.2 hi, rfl⟩)) hnext
    (htags (i + 1) (mem_range.2 (by omega)))

theorem describes_longChain_last : Describes longChain "T64" (.primitive .int) :=
  describes_source (v := .enum "int" none) (count_longChain 64 (mem_range.2 (by decide)))
    (mem_append_right _ (by decide)) (by decide) (.primitive (by decide)) rfl

/-- At the last name the chain ends. -/
theorem longChain_ends (next : String) : ¬ Describes longChain "T64" (.ref next) := by
  intro hnext
  cases describes_longChain_last.unique hnext

theorem leads_longChain (hsteps : steps ≤ 64) :
    Leads longChain steps ("T" ++ toString (64 - steps)) "T64" := by
  induction steps with
  | zero => exact .refl _
  | succ n ih =>
    have h := describes_longChain (i := 64 - (n + 1)) (by omega)
    rw [show 64 - (n + 1) + 1 = 64 - n by omega] at h
    exact .step h (ih (by omega))

/-- The chain is one too long for its first name. -/
theorem mem_build_longChain :
    ("T0", .error (.defectiveDeclaration "T0")) ∈ (build longChain).entries :=
  (mem_build_defective_iff (describes_longChain (i := 0) (by decide))).2
    ⟨_, resolve_collect_of_long (leads_longChain (Nat.le_refl 64))⟩

/-- In the long chain no name comes twice, and it ends in an integer. Yet `T0` is defective and has
no type. -/
theorem long_chain_is_defective :
    let index := build longChain
    Describes longChain "T0" (.ref "T1") ∧ Leads longChain 64 "T0" "T64" ∧
      Describes longChain "T64" (.primitive .int) ∧
      (∀ steps round last, Leads longChain steps "T0" last →
        ¬ Leads longChain (round + 1) last last) ∧
      ("T0", .error (.defectiveDeclaration "T0")) ∈ index.entries ∧
      (ref "T0").resolve index.resolver = .error (.defectiveDeclaration "T0") := by
  refine ⟨describes_longChain (i := 0) (by decide), leads_longChain (Nat.le_refl 64),
    describes_longChain_last, ?_, mem_build_longChain, resolve_build_of_mem mem_build_longChain⟩
  intro steps round last hsteps hround
  obtain ⟨other, hother⟩ := hround.forever 65
  have hle := (leads_longChain (Nat.le_refl 64)).le_of_end longChain_ends (hsteps.append hother)
  omega

end TypeIndex

end TypedNotation
