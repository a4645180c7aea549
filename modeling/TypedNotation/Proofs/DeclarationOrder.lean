import TypedNotation.Proofs.ReferenceChains

/-!
# The order of declarations

Declarations are found file by file, and the order of the files should not matter. It enters the
index in four places: of a name that is declared more than once the first text is kept, the type of
declarations lists the declared names, the entries stand in the order of the names, and references
are followed before some entries are taken back.

None of them can be seen from outside. The text of a name counts only if it is the only one, and of
the declared names it counts only which they are (`TypeIndex.Describes.perm`,
`TypeIndex.IsDefective.perm`). So the entries are the same before references are followed
(`TypeIndex.resolver_collect_perm`), and everything after that goes by lookups.
-/

namespace TypedNotation

namespace TypeIndex

variable {declarations others : List (String × String)} {name : String} {spec : TypeSpec}

/-! ### What a name declares -/

theorem mem_names_perm (h : declarations.Perm others) :
    name ∈ declarations.map (·.1) ↔ name ∈ others.map (·.1) :=
  (h.map (·.1)).mem_iff

/-- Which data is a declaration depends on which names are declared. -/
theorem check_root_ok_perm (h : declarations.Perm others) (data : Data) :
    (data.check (Declaration.resolver (declarations.map (·.1))) Declaration.root).ok =
      (data.check (Declaration.resolver (others.map (·.1))) Declaration.root).ok := by
  rw [Bool.eq_iff_iff, Declaration.check_root_ok_iff, Declaration.check_root_ok_iff,
    Declaration.isType_iff_ofValue?, Declaration.isType_iff_ofValue?]
  simp only [List.subset_def, mem_names_perm h]

theorem Describes.perm (h : declarations.Perm others) (hspec : Describes declarations name spec) :
    Describes others name spec := by
  obtain ⟨hcount, text, data, hmem, hdata, hok, hvalue⟩ := hspec
  rw [check_root_ok_perm h] at hok
  exact ⟨((h.map _).count_eq name).symm.trans hcount, text, data, h.mem_iff.1 hmem, hdata, hok,
    hvalue⟩

theorem IsDefective.perm (h : declarations.Perm others) (hname : IsDefective declarations name) :
    IsDefective others name := by
  obtain ⟨hcount, text, hmem, hfails⟩ := hname
  refine ⟨((h.map _).count_eq name).symm.trans hcount, text, h.mem_iff.1 hmem, fun data hdata => ?_⟩
  rw [← check_root_ok_perm h]
  exact hfails data hdata

/-! ### The entries -/

/-- Before references are followed, the entries do not depend on the order. -/
theorem resolver_collect_perm (h : declarations.Perm others) :
    (collect declarations).resolver = (collect others).resolver := by
  funext name
  rcases declaration_cases declarations name with hmem | hcount | hdefective | ⟨spec, hspec⟩
  · rw [resolver_collect_of_not_mem hmem,
      resolver_collect_of_not_mem fun hother => hmem ((mem_names_perm h).2 hother)]
  · rw [resolver_collect_of_conflict hcount,
      resolver_collect_of_conflict (hcount.trans_eq ((h.map _).count_eq name))]
  · rw [resolver_collect_of_isDefective hdefective,
      resolver_collect_of_isDefective (hdefective.perm h)]
  · rw [resolver_collect_of_describes hspec, resolver_collect_of_describes (hspec.perm h)]

/-- The second pass goes by lookups alone. -/
theorem resolver_build_perm (h : declarations.Perm others) :
    (build declarations).resolver = (build others).resolver := by
  funext name
  have hlooping : ∀ entry, (collect declarations).isLooping name entry =
      (collect others).isLooping name entry := by
    intro entry
    rw [Bool.eq_iff_iff, isLooping_iff, isLooping_iff, resolver_collect_perm h]
  rw [build, build, resolver_markLoops, resolver_markLoops, hlooping, resolver_collect_perm h]

theorem mem_names_build_iff : name ∈ (build declarations).names ↔
    name ∈ declarations.map (·.1) := by
  rw [names_build, mem_firsts_names]

/-- The entry of a name is found by looking it up. -/
theorem lookup_build (declarations : List (String × String)) (name : String) :
    (build declarations).entries.lookup name =
      if name ∈ (build declarations).names then some ((build declarations).resolver name)
        else none := by
  rw [resolver]
  cases hlookup : (build declarations).entries.lookup name with
  | none =>
    rw [if_neg]
    intro hmem
    obtain ⟨⟨name, entry⟩, hentry, rfl⟩ := List.mem_map.1 hmem
    rw [(Ordered.lookup_eq_some_iff (nodup_names_build declarations)).2 hentry] at hlookup
    cases hlookup
  | some entry =>
    have hentry := (Ordered.lookup_eq_some_iff (nodup_names_build declarations)).1 hlookup
    have hmem : name ∈ (build declarations).names := List.mem_map_of_mem hentry
    rw [if_pos hmem]

/-- **The order of declarations does not matter.** However some declarations are arranged, among
them conflicting ones, defective ones and references that run in a circle, the index has the same
names; and every name has the same entry, leads to the same type or to the same issue, and every
data tree gets the same verdict when it is checked against it. -/
theorem build_does_not_depend_on_order (h : declarations.Perm others) :
    (build declarations).names.Perm (build others).names ∧
    ∀ name, (build declarations).entries.lookup name = (build others).entries.lookup name ∧
      (TypeSpec.ref name).resolve (build declarations).resolver =
        (TypeSpec.ref name).resolve (build others).resolver ∧
      ∀ data : Data, data.check (build declarations).resolver (.ref name) =
        data.check (build others).resolver (.ref name) := by
  constructor
  · rw [List.perm_ext_iff_of_nodup (nodup_names_build _) (nodup_names_build _)]
    intro name
    rw [mem_names_build_iff, mem_names_build_iff, mem_names_perm h]
  · intro name
    refine ⟨?_, by rw [resolver_build_perm h], fun data => by rw [resolver_build_perm h]⟩
    rw [lookup_build, lookup_build, resolver_build_perm h]
    simp only [mem_names_build_iff, mem_names_perm h]

/-- Two texts of `A` and a circle of `B` and `C`, the other way round. -/
theorem build_does_not_depend_on_order_of_reverse :
    let declarations := [("A", "#int"), ("B", "#ref(#C)"), ("A", "#ref(#B)"), ("C", "#ref(#B)")]
    declarations.Perm declarations.reverse ∧
      (build declarations).entries.lookup "B" = (build declarations.reverse).entries.lookup "B" ∧
      (build declarations).names ≠ (build declarations.reverse).names := by
  intro declarations
  have hperm : declarations.Perm declarations.reverse := declarations.reverse_perm.symm
  exact ⟨hperm, ((build_does_not_depend_on_order hperm).2 "B").1, by decide +kernel⟩

end TypeIndex

end TypedNotation
