import TypedNotation.Proofs.Scanning

/-!
# Lengths of literals

The scanner takes as much of a line as belongs to a number, an escape or a comment, and how much
that is could depend on everything that follows. It does not: a number that was cut off in front of
one text is cut off in front of any other text that delimits it (`Scan.numberLength_congr`), an
escape in front of any text at all (`Scan.escapeLength?_congr`), and the end of a comment is where
its mark stands (`Scan.commentLength?_congr`). Blanks around a comment do not contain that mark.

Nor does a number reach beyond its line or into blanks (`Scan.solid_numberLength`).
-/

namespace TypedNotation

open List

namespace Scan

variable {own rest other : List Char} {cs : List Char} {n : Nat}

/-! ### Numbers -/

theorem digitRun_pos_of_startsWithDigit (h : startsWithDigit cs = true) : 0 < digitRun cs := by
  cases cs with
  | nil => cases h
  | cons c cs =>
    have hc : c.isDigit = true := h
    simp [digitRun, hc]

theorem Delimits.startsWithDigit_eq {rest : List Char} (h : Delimits rest) :
    startsWithDigit rest = false :=
  startsWithDigit_of_head fun c hc => (h.not_isDigit c hc).1

theorem Delimits.digitRun_eq {rest : List Char} (h : Delimits rest) : digitRun ([] ++ rest) = 0 :=
  digitRun_append (by simp) h.not_isDigit

/-- A run of digits that ends within a text ends there in front of any delimiter. -/
theorem digitRun_congr (h : digitRun (own ++ rest) ≤ own.length)
    (hother : Delimits other) : digitRun (own ++ other) = digitRun (own ++ rest) := by
  induction own with
  | nil =>
    have hzero : digitRun rest = 0 := Nat.le_zero.1 h
    rw [hother.digitRun_eq, nil_append, hzero]
  | cons c own ih =>
    rw [cons_append] at h
    rw [cons_append, cons_append]
    -- an underscore at the end of the text counts only if a digit follows it, which would count too
    have hstart : digitRun (c :: (own ++ rest)) ≤ own.length + 1 → c = '_' →
        startsWithDigit (own ++ other) = startsWithDigit (own ++ rest) := by
      rintro hle rfl
      cases own with
      | cons d own => rfl
      | nil =>
        simp only [nil_append] at hle ⊢
        rw [hother.startsWithDigit_eq]
        by_contra hdigit
        have htrue : startsWithDigit rest = true := by
          cases hr : startsWithDigit rest with
          | true => rfl
          | false => exact absurd hr.symm hdigit
        have hpos := digitRun_pos_of_startsWithDigit htrue
        have hrun : digitRun ('_' :: rest) = digitRun rest + 1 := by
          rw [digitRun, htrue]
          rfl
        rw [hrun, length_nil] at hle
        omega
    have hcond : (c.isDigit || (c == '_' && startsWithDigit (own ++ other))) =
        (c.isDigit || (c == '_' && startsWithDigit (own ++ rest))) := by
      by_cases hc : c = '_'
      · rw [hstart h hc]
      · rw [beq_false_of_ne hc, Bool.false_and, Bool.false_and]
    rw [digitRun, digitRun, hcond]
    split
    next hdigit =>
      rw [digitRun, if_pos hdigit, length_cons] at h
      rw [ih (Nat.le_of_succ_le_succ h)]
    next => rfl

theorem fractionLength_congr (h : fractionLength (own ++ rest) ≤ own.length)
    (hother : Delimits other) : fractionLength (own ++ other) = fractionLength (own ++ rest) := by
  cases own with
  | nil =>
    have hzero : fractionLength rest = 0 := Nat.le_zero.1 h
    rw [nil_append, nil_append, hother.fractionLength_eq, hzero]
  | cons c own =>
    rw [cons_append] at h
    rw [cons_append, cons_append]
    by_cases hc : c = '.'
    · subst hc
      rw [fractionLength] at h
      rw [fractionLength, fractionLength]
      cases own with
      | cons d own =>
        have hsame : startsWithDigit (d :: own ++ other) = startsWithDigit (d :: own ++ rest) := rfl
        rw [hsame]
        split
        next hdigit =>
          rw [if_pos hdigit] at h
          rw [digitRun_congr (by simpa using h) hother]
        next => rfl
      | nil =>
        simp only [nil_append] at h ⊢
        rw [if_neg (by simp [hother.startsWithDigit_eq])]
        split
        next hdigit =>
          have hpos := digitRun_pos_of_startsWithDigit hdigit
          rw [if_pos hdigit, length_singleton] at h
          omega
        next => rfl
    · rw [fractionLength, fractionLength] <;> simp [hc]

/-- The digits of a power behind its mark: a sign may stand in front of them. -/
theorem powerLength_cons {c : Char} (cs : List Char) (hc : c = 'e' ∨ c = 'E') :
    powerLength (c :: cs) =
      if cs.head? = some '+' ∨ cs.head? = some '-' then
        if startsWithDigit cs.tail then digitRun cs.tail + 2 else 0
      else if startsWithDigit cs then digitRun cs + 1 else 0 := by
  have hmark : (c == 'e' || c == 'E') = true := by simpa using hc
  unfold powerLength
  dsimp only
  rw [if_pos hmark]
  split
  next ds => exact (if_pos (.inl rfl)).symm
  next ds => exact (if_pos (.inr rfl)).symm
  next hplus hminus =>
    refine (if_neg ?_).symm
    rintro (hhead | hhead) <;> obtain ⟨ds, rfl⟩ := head?_eq_some_iff.1 hhead
    · exact hplus ds rfl
    · exact hminus ds rfl

/-- A run of digits that fills a text fills it in front of any delimiter. -/
theorem fullRun_congr (hstart : startsWithDigit (own ++ rest) = true)
    (hrun : digitRun (own ++ rest) = own.length) (hother : Delimits other) :
    startsWithDigit (own ++ other) = true ∧ digitRun (own ++ other) = own.length := by
  cases own with
  | nil =>
    have hpos := digitRun_pos_of_startsWithDigit hstart
    rw [hrun] at hpos
    cases hpos
  | cons c own =>
    refine ⟨hstart, ?_⟩
    rw [digitRun_congr (Nat.le_of_eq hrun) hother, hrun]

theorem powerLength_congr (h : powerLength (own ++ rest) = own.length) (hother : Delimits other) :
    powerLength (own ++ other) = own.length := by
  cases own with
  | nil => rw [nil_append, hother.powerLength_eq, length_nil]
  | cons c own =>
    have hmark : c = 'e' ∨ c = 'E' := by
      by_contra hc
      have hzero : powerLength (c :: (own ++ rest)) = 0 := by
        unfold powerLength
        exact if_neg (by simpa using hc)
      rw [cons_append, hzero] at h
      cases h
    rw [cons_append, powerLength_cons _ hmark] at h
    rw [cons_append, powerLength_cons _ hmark]
    cases own with
    | nil =>
      -- a mark alone is no power: a sign or a digit would belong to it
      exfalso
      rw [nil_append, length_singleton] at h
      split at h
      next => split at h <;> omega
      next =>
        split at h
        next hdigit =>
          have hpos := digitRun_pos_of_startsWithDigit hdigit
          omega
        next => cases h
    | cons d own =>
      rw [cons_append, head?_cons, tail_cons] at h ⊢
      split at h
      next hsign =>
        rw [if_pos hsign]
        split at h
        next hdigit =>
          obtain ⟨hstart, hrun⟩ := fullRun_congr hdigit (by simpa using h) hother
          rw [if_pos hstart, hrun]
          rfl
        next => cases h
      next hsign =>
        rw [if_neg hsign]
        split at h
        next hdigit =>
          have hlength : digitRun (d :: own ++ rest) = (d :: own).length := by simpa using h
          obtain ⟨hstart, hrun⟩ := fullRun_congr hdigit hlength hother
          rw [cons_append] at hstart hrun
          rw [if_pos hstart, hrun]
          rfl
        next => cases h

/-- A number is cut off in the same place in front of every delimiter. -/
theorem numberLength_congr {isFloat : Bool} (h : numberLength (own ++ rest) = (own.length, isFloat))
    (hother : Delimits other) : numberLength (own ++ other) = (own.length, isFloat) := by
  simp only [numberLength, Prod.mk.injEq] at h ⊢
  obtain ⟨hlength, hfloat⟩ := h
  have hwhole : digitRun (own ++ rest) ≤ own.length := by omega
  have hwhole' := digitRun_congr hwhole hother
  rw [drop_append_of_le_length hwhole] at hlength hfloat
  have hrest : (own.drop (digitRun (own ++ rest))).length = own.length - digitRun (own ++ rest) :=
    length_drop
  have hfraction : fractionLength (own.drop (digitRun (own ++ rest)) ++ rest) ≤
      (own.drop (digitRun (own ++ rest))).length := by omega
  have hfraction' := fractionLength_congr hfraction hother
  rw [hwhole', drop_append_of_le_length hwhole, hfraction']
  have hboth : digitRun (own ++ rest) + fractionLength (own.drop (digitRun (own ++ rest)) ++ rest) ≤
      own.length := by omega
  rw [drop_append_of_le_length hboth] at hlength hfloat ⊢
  have hpower : powerLength (own.drop (digitRun (own ++ rest) +
      fractionLength (own.drop (digitRun (own ++ rest)) ++ rest)) ++ rest) =
      (own.drop (digitRun (own ++ rest) +
        fractionLength (own.drop (digitRun (own ++ rest)) ++ rest))).length := by
    rw [length_drop]
    omega
  rw [powerLength_congr hpower hother, ← hpower]
  exact ⟨hlength, hfloat⟩

/-- A text starts with so many characters, none of them blank. -/
structure Solid (cs : List Char) (n : Nat) : Prop where
  le : n ≤ cs.length
  visible : ∀ c ∈ cs.take n, Text.isBlank c = false

theorem solid_zero (cs : List Char) : Solid cs 0 :=
  ⟨Nat.zero_le _, by simp⟩

theorem Solid.cons {cs : List Char} {n : Nat} {c : Char} (hc : Text.isBlank c = false)
    (h : Solid cs n) : Solid (c :: cs) (n + 1) := by
  refine ⟨Nat.succ_le_succ h.le, fun d hd => ?_⟩
  rcases mem_cons.1 hd with rfl | hd
  · exact hc
  · exact h.visible d hd

theorem Solid.add {m n : Nat} (hm : Solid cs m) (hn : Solid (cs.drop m) n) : Solid cs (m + n) := by
  have hle := hn.le
  rw [length_drop] at hle
  refine ⟨by have := hm.le; omega, fun c hc => ?_⟩
  rw [take_add] at hc
  rcases mem_append.1 hc with hc | hc
  · exact hm.visible c hc
  · exact hn.visible c hc

theorem solid_digitRun (cs : List Char) : Solid cs (digitRun cs) := by
  induction cs with
  | nil => exact solid_zero []
  | cons c cs ih =>
    rw [digitRun]
    split
    next hc =>
      refine ih.cons (isBlank_of_isNameChar ?_)
      simp only [Bool.or_eq_true, Bool.and_eq_true, beq_iff_eq] at hc
      rcases hc with hc | ⟨rfl, -⟩
      · exact isNameChar_of_isDigit hc
      · rfl
    next => exact solid_zero _

theorem solid_fractionLength (cs : List Char) : Solid cs (fractionLength cs) := by
  unfold fractionLength
  split
  next cs =>
    split
    · exact (solid_digitRun cs).cons rfl
    · exact solid_zero _
  next => exact solid_zero _

theorem solid_powerLength (cs : List Char) : Solid cs (powerLength cs) := by
  cases cs with
  | nil => exact solid_zero []
  | cons c cs =>
    by_cases hc : c = 'e' ∨ c = 'E'
    · have hblank : Text.isBlank c = false := by rcases hc with rfl | rfl <;> rfl
      rw [powerLength_cons cs hc]
      split
      next hsign =>
        split
        · have hcs : ∃ d, cs = d :: cs.tail ∧ Text.isBlank d = false := by
            rcases hsign with hsign | hsign <;> obtain ⟨ds, rfl⟩ := head?_eq_some_iff.1 hsign
            · exact ⟨'+', rfl, rfl⟩
            · exact ⟨'-', rfl, rfl⟩
          obtain ⟨d, hcs, hd⟩ := hcs
          have hsolid := ((solid_digitRun cs.tail).cons hd).cons hblank
          rwa [← hcs] at hsolid
        · exact solid_zero _
      next =>
        split
        · exact (solid_digitRun cs).cons hblank
        · exact solid_zero _
    · have hzero : powerLength (c :: cs) = 0 := by
        unfold powerLength
        exact if_neg (by simpa using hc)
      rw [hzero]
      exact solid_zero _

theorem solid_numberLength (cs : List Char) : Solid cs (numberLength cs).1 := by
  have hfraction := solid_fractionLength (cs.drop (digitRun cs))
  have hpower := solid_powerLength (cs.drop (digitRun cs + fractionLength (cs.drop (digitRun cs))))
  exact ((solid_digitRun cs).add hfraction).add hpower

/-! ### Escapes -/

theorem startsWithHex_congr (hlength : own.length = n) :
    startsWithHex n (own ++ other) = startsWithHex n (own ++ rest) := by
  simp [startsWithHex, ← hlength]

/-- An escape does not depend on what follows it. -/
theorem escapeLength?_congr (h : escapeLength? (own ++ rest) = some own.length) :
    escapeLength? (own ++ other) = some own.length := by
  cases own with
  | nil =>
    exfalso
    cases rest with
    | nil => cases h
    | cons c rest =>
      rw [nil_append, escapeLength?] at h
      split at h
      next => simp at h
      next => split at h <;> [simp at h; (split at h <;> simp at h)]
  | cons c own =>
    rw [cons_append, escapeLength?] at h
    rw [cons_append, escapeLength?]
    split at h
    next hc => rw [if_pos hc, h]
    next hc =>
      rw [if_neg hc]
      split at h
      next hx =>
        have hown : own.length = 2 := by simpa [eq_comm] using h
        rw [startsWithHex_congr hown, if_pos hx, h]
      next hx =>
        split at h
        next hu =>
          have hown : own.length = 4 := by simpa [eq_comm] using h
          have hc' : c = 'u' := by
            rw [Bool.and_eq_true] at hu
            exact beq_iff_eq.1 hu.1
          have hnot : ¬(c == 'x' && startsWithHex 2 (own ++ other)) = true := by simp [hc']
          rw [if_neg hnot, startsWithHex_congr hown, if_pos hu, h]
        next => cases h

theorem le_of_startsWithHex (h : startsWithHex n cs = true) : n ≤ cs.length := by
  simp only [startsWithHex, Bool.and_eq_true, beq_iff_eq, length_take] at h
  omega

theorem escapeLength?_le (h : escapeLength? cs = some n) : n ≤ cs.length := by
  cases cs with
  | nil => cases h
  | cons c cs =>
    rw [escapeLength?] at h
    split at h
    next => simp at h; simp [← h]
    next =>
      split at h
      next hx =>
        have hle := le_of_startsWithHex (Bool.and_eq_true_iff.1 hx).2
        obtain rfl := Option.some.inj h
        simp only [length_cons]
        omega
      next =>
        split at h
        next hu =>
          have hle := le_of_startsWithHex (Bool.and_eq_true_iff.1 hu).2
          obtain rfl := Option.some.inj h
          simp only [length_cons]
          omega
        next => cases h

/-! ### Comments -/

/-- The end of a comment is the first of its marks. -/
theorem commentLength?_cons (c : Char) (cs : List Char) :
    commentLength? (c :: cs) =
      if c = '*' ∧ cs.head? = some '/' then some 2 else (commentLength? cs).map (· + 1) := by
  by_cases hmark : c = '*' ∧ cs.head? = some '/'
  · obtain ⟨rfl, hhead⟩ := hmark
    obtain ⟨rest, rfl⟩ := head?_eq_some_iff.1 hhead
    rfl
  · rw [if_neg hmark, commentLength?]
    rintro rest rfl rfl
    exact hmark ⟨rfl, rfl⟩

/-- A mark that ends a comment ends it whatever follows. -/
theorem commentLength?_congr {own : List Char} (rest other : List Char)
    (h : commentLength? (own ++ rest) = some own.length) :
    commentLength? (own ++ other) = some own.length := by
  induction own with
  | nil =>
    exfalso
    cases rest with
    | nil => cases h
    | cons c rest =>
      rw [nil_append, commentLength?_cons] at h
      split at h
      · simp at h
      · simp at h
  | cons c own ih =>
    rw [cons_append, commentLength?_cons] at h
    rw [cons_append, commentLength?_cons]
    have hhead : own ≠ [] → (own ++ other).head? = (own ++ rest).head? := by
      intro hne
      cases own with
      | nil => exact absurd rfl hne
      | cons d own => rfl
    split at h
    next hmark =>
      have hne : own ≠ [] := by
        rintro rfl
        simp at h
      rw [hhead hne, if_pos hmark, h]
    next hmark =>
      obtain ⟨n, hn, hlen⟩ := Option.map_eq_some_iff.1 h
      have hn' : commentLength? (own ++ rest) = some own.length := by
        rw [hn]
        simpa using hlen
      have hne : own ≠ [] := by
        rintro rfl
        have := ih hn'
        rw [nil_append] at this hn'
        cases rest with
        | nil => cases hn'
        | cons d rest =>
          rw [commentLength?_cons] at hn'
          split at hn' <;> simp at hn'
      rw [hhead hne, if_neg hmark, ih hn']
      rfl

/-- A comment that ends has its mark at its end. -/
theorem exists_of_commentLength? (h : commentLength? cs = some n) :
    n ≤ cs.length ∧ ∃ own, cs.take n = own ++ ['*', '/'] := by
  induction cs generalizing n with
  | nil => cases h
  | cons c cs ih =>
    rw [commentLength?_cons] at h
    split at h
    next hmark =>
      obtain ⟨rfl, hhead⟩ := hmark
      obtain ⟨rest, rfl⟩ := head?_eq_some_iff.1 hhead
      obtain rfl := Option.some.inj h
      exact ⟨by simp, [], rfl⟩
    next =>
      obtain ⟨m, hm, rfl⟩ := Option.map_eq_some_iff.1 h
      obtain ⟨hle, own, hown⟩ := ih hm
      exact ⟨Nat.succ_le_succ hle, c :: own, by rw [take_succ_cons, hown]; rfl⟩

/-- What is cut off a comment up to its end is such a comment by itself. -/
theorem commentLength?_take (h : commentLength? cs = some n) :
    commentLength? (cs.take n) = some (cs.take n).length := by
  have hle := (exists_of_commentLength? h).1
  have hall : commentLength? (cs.take n ++ cs.drop n) = some (cs.take n).length := by
    rw [take_append_drop, h, length_take, Nat.min_eq_left hle]
  simpa using commentLength?_congr (cs.drop n) [] hall

/-- Blanks in front of a comment do not end it. -/
theorem commentLength?_blank_append {gap : List Char} (cs : List Char)
    (hgap : ∀ c ∈ gap, Text.isBlank c = true) :
    commentLength? (gap ++ cs) = (commentLength? cs).map (· + gap.length) := by
  induction gap with
  | nil => simp
  | cons c gap ih =>
    have hc : c ≠ '*' := by
      rintro rfl
      exact absurd (hgap _ mem_cons_self) (by decide)
    rw [cons_append, commentLength?_cons, if_neg (fun h => hc h.1),
      ih fun d hd => hgap d (mem_cons_of_mem _ hd), Option.map_map]
    rfl

/-- Blanks behind a comment do not end it. -/
theorem commentLength?_append_blank {own gap : List Char} (h : commentLength? own = none)
    (hgap : ∀ c ∈ gap, Text.isBlank c = true) : commentLength? (own ++ gap) = none := by
  induction own with
  | nil =>
    rw [nil_append, ← append_nil gap, commentLength?_blank_append [] hgap]
    rfl
  | cons c own ih =>
    rw [commentLength?_cons] at h
    split at h
    next => cases h
    next hmark =>
      rw [cons_append, commentLength?_cons, if_neg, ih (by simpa using h)]
      · rfl
      · rintro ⟨rfl, hhead⟩
        cases own with
        | cons d own => exact hmark ⟨rfl, hhead⟩
        | nil =>
          have hslash := mem_of_mem_head? hhead
          exact absurd (hgap _ hslash) (by decide)

/-- A part of an unended comment does not end it. -/
theorem commentLength?_eq_none_of_append {a b c : List Char}
    (h : commentLength? (a ++ (b ++ c)) = none) : commentLength? b = none := by
  induction a with
  | nil =>
    rw [nil_append] at h
    induction b with
    | nil => rfl
    | cons d b ih =>
      rw [cons_append, commentLength?_cons] at h
      split at h
      next => cases h
      next hmark =>
        rw [commentLength?_cons, if_neg, ih (by simpa using h)]
        · rfl
        · rintro ⟨rfl, hhead⟩
          refine hmark ⟨rfl, ?_⟩
          cases b with
          | nil => cases hhead
          | cons e b => exact hhead
  | cons d a ih =>
    rw [cons_append, commentLength?_cons] at h
    split at h
    next => cases h
    next => exact ih (by simpa using h)

end Scan

end TypedNotation
