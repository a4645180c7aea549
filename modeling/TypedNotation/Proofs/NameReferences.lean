import TypedNotation.Proofs.ReferenceChains

/-!
# References to declared names

What can be declared is decided by the names of files: the stem of a declaration is any word. What
can be referred to is decided by the scanner: a reference is written with a tag, of letters, digits
and underscores. Among ASCII characters the two are the same (`Text.isWordChar_eq_isNameChar`), so
that a declaration may consist of a reference to any declared ASCII name.

Such a declaration has the type of the name it refers to, but it is one reference further away from
it. If the references that start at the name reach as far as the index follows, the new declaration
is the one that cannot be followed (`TypeIndex.declared_name_can_be_referenced`).
-/

namespace TypedNotation

open TypeSpec DocumentName

/-! ### Names that can be written -/

/-- Among ASCII characters, a name is made of what a word is made of. -/
theorem Text.isWordChar_eq_isNameChar {c : Char} (h : c.toNat < 128) :
    Text.isWordChar c = Scan.isNameChar c := by
  simp [Text.isWordChar, Scan.isNameChar, Nat.not_le.2 h]

/-- A declared name of ASCII characters can be written as a tag. -/
theorem Value.isTagName_of_declared? {path : Path} {name : String}
    (h : declared? path = some name) (hascii : ∀ c ∈ name.toList, c.toNat < 128) :
    Value.isTagName name = true := by
  have hword : Text.isWord name.toList = true := by
    rw [declared?] at h
    split at h
    next => exact (Option.filter_eq_some_iff.1 h).2
    next => cases h
  simp only [Text.isWord, Bool.and_eq_true, List.all_eq_true] at hword
  simp only [Value.isTagName, Bool.and_eq_true, List.all_eq_true]
  refine ⟨hword.1, fun c hc => ?_⟩
  rw [← Text.isWordChar_eq_isNameChar (hascii c hc)]
  exact hword.2 c hc

namespace TypeIndex

variable {declarations : List (String × String)} {name other : String}

/-- A declaration that refers to a name, followed by the chain of that name. -/
theorem leads_ref_iff (h : Describes declarations other (.ref name)) {steps : Nat} {last : String} :
    Leads declarations (steps + 1) other last ↔ Leads declarations steps name last := by
  constructor
  · intro hleads
    cases hleads with
    | step hnext hrest =>
      obtain rfl := ref.inj (h.unique hnext)
      exact hrest
  · exact .step h

/-- The references that start at a name end, with one to spare, and not at a defective
declaration. -/
def EndsEarly (declarations : List (String × String)) (name : String) : Prop :=
  ∃ steps last, steps + 1 < maxHops ∧ Leads declarations steps name last ∧
    (∀ next, ¬ Describes declarations last (.ref next)) ∧ ¬ IsDefective declarations last

/-- A reference to a name is defective unless the references of the name end early. -/
theorem mem_build_ref_defective_iff (h : Describes declarations other (.ref name)) :
    (other, .error (.defectiveDeclaration other)) ∈ (build declarations).entries ↔
      ¬ EndsEarly declarations name := by
  rw [mem_build_defective_iff h, resolve_collect_eq_defective_iff]
  constructor
  · rintro hdefect ⟨steps, last, hsteps, hlast, hend, hnot⟩
    have hother : Leads declarations (steps + 1) other last := (leads_ref_iff h).2 hlast
    rcases hdefect with ⟨far, hfar⟩ | ⟨more, defect, hmore, hdefect⟩
    · exact absurd (hother.le_of_end hend hfar) (by omega)
    · -- both chains end, so they end at the same name
      have hdefectEnd : ∀ next, ¬ Describes declarations defect (.ref next) :=
        fun next hnext => hnext.not_isDefective hdefect
      have hsame : (collect declarations).resolver last =
          (collect declarations).resolver defect := by
        rw [← follow_collect_of_leads hother (Nat.lt_succ_of_le (Nat.le_max_left _ more)) hend,
          ← follow_collect_of_leads hmore (Nat.lt_succ_of_le (Nat.le_max_right _ _)) hdefectEnd]
      rw [resolver_collect_of_isDefective hdefect, resolver_collect_eq_defective_iff] at hsame
      exact hnot hsame.2
  · intro hnot
    rcases exists_leads declarations 63 name with ⟨last, hlast⟩ | ⟨steps, hsteps, last, hlast, hend⟩
    · exact .inl ⟨last, (leads_ref_iff h).2 hlast⟩
    · refine .inr ⟨steps + 1, last, (leads_ref_iff h).2 hlast, ?_⟩
      by_contra hdefective
      exact hnot ⟨steps, last, Nat.succ_lt_succ hsteps, hlast, hend, hdefective⟩

/-- **Declared names can be referred to.** If a file declares a name of ASCII characters, another
declaration may consist of a reference to that name. The index has that reference as its entry, and
it leads to what the name leads to, exactly if the references that start at the name end with one to
spare and not at a defective declaration; otherwise the index has it as defective. -/
theorem declared_name_can_be_referenced {path : Path}
    (hpath : declared? path = some name) (hascii : ∀ c ∈ name.toList, c.toNat < 128)
    (hname : name ∈ declarations.map (·.1)) (hcount : (declarations.map (·.1)).count other = 1)
    (hother : (other, "#ref(#" ++ name ++ ")") ∈ declarations) :
    let index := build declarations
    (EndsEarly declarations name → (other, .ok (.ref name)) ∈ index.entries ∧
      (ref other).resolve index.resolver = (ref name).resolve index.resolver) ∧
    (¬ EndsEarly declarations name →
      (other, .error (.defectiveDeclaration other)) ∈ index.entries) := by
  intro index
  have href : Describes declarations other (.ref name) :=
    describes_ref hcount hother hname (Value.isTagName_of_declared? hpath hascii)
  refine ⟨fun hends => ?_, (mem_build_ref_defective_iff href).2⟩
  constructor
  · have hkept := lookup_build_of_describes href
    rw [if_neg, Ordered.lookup_eq_some_iff (nodup_names_build declarations)] at hkept
    · exact hkept
    · intro hlooping
      have hdefect := (mem_build_defective_iff href).2 (isLooping_iff.1 hlooping).2
      exact (mem_build_ref_defective_iff href).1 hdefect hends
  · obtain ⟨steps, last, hsteps, hlast, hend, hnot⟩ := hends
    have hfollow : (ref other).resolve index.resolver =
        (collect declarations).resolver last :=
      follow_build_of_leads ((leads_ref_iff href).2 hlast) hsteps (Nat.le_refl _) hend hnot
    rw [hfollow]
    exact (follow_build_of_leads hlast (Nat.lt_of_succ_lt hsteps) (Nat.le_refl _) hend hnot).symm

/-- A name may begin with a digit. -/
theorem declared_name_can_be_referenced_of_digits :
    let declarations := [("X", "#ref(#7_zip)"), ("7_zip", "#int")]
    declared? ⟨"types/7_zip.thrdtype"⟩ = some "7_zip" ∧
      EndsEarly declarations "7_zip" ∧
      ("X", .ok (.ref "7_zip")) ∈ (build declarations).entries ∧
      (ref "X").resolve (build declarations).resolver =
        (ref "7_zip").resolve (build declarations).resolver := by
  intro declarations
  have hpath : declared? ⟨"types/7_zip.thrdtype"⟩ = some "7_zip" := by decide +kernel
  have hint : Describes declarations "7_zip" (.primitive .int) :=
    describes_source (v := .enum "int" none) (by decide) (by decide) (by decide)
      (.primitive (by decide)) rfl
  have hends : EndsEarly declarations "7_zip" := by
    refine ⟨0, "7_zip", by decide, .refl _, fun next hnext => ?_, hint.not_isDefective⟩
    cases hint.unique hnext
  have hascii : ∀ c ∈ "7_zip".toList, c.toNat < 128 := by simp
  exact ⟨hpath, hends, (declared_name_can_be_referenced hpath hascii (by decide) (by decide)
    (by decide)).1 hends⟩

/-- In the long chain `T1` is declared by a file and has a type, and `T0` is nothing but a reference
to it. Yet `T0` is defective and has no type. -/
theorem reference_to_declared_name_is_defective :
    let index := build longChain
    declared? ⟨"T1.thrdtype"⟩ = some "T1" ∧ Describes longChain "T1" (.ref "T2") ∧
      (ref "T1").resolve index.resolver = .ok (.primitive .int) ∧
      ("T0", "#ref(#T1)") ∈ longChain ∧
      ("T0", .error (.defectiveDeclaration "T0")) ∈ index.entries ∧
      (ref "T0").resolve index.resolver = .error (.defectiveDeclaration "T0") := by
  refine ⟨by decide +kernel, describes_longChain (i := 1) (by decide), ?_, by decide +kernel,
    mem_build_longChain, resolve_build_of_mem mem_build_longChain⟩
  have hleads : Leads longChain 63 "T1" "T64" := leads_longChain (by decide)
  rw [resolve, follow_build_of_leads hleads (by decide) (Nat.le_refl _) longChain_ends
    describes_longChain_last.not_isDefective, resolver_collect_of_describes
      describes_longChain_last]

end TypeIndex

end TypedNotation
