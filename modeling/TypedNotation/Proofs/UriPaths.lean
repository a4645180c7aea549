import Mathlib.Data.List.TakeWhile
import Mathlib.Tactic.Common
import TypedNotation.Uri.Reference

/-!
# Paths and their URIs

The URI of a file spells its path byte by byte, and the way back puts bytes together again, so two
round trips stand one inside the other. The bytes of a text are read back as the text: no byte of a
character is taken for the start of another one (`Utf8.decode_encode`). And escaped bytes are read
back as the bytes: a percent sign is always escaped itself, so each one in the text of a URI starts
an escape (`Uri.percentDecode_percentEncode`).

Then a path that starts at the root and has no backslash is the path of its own URI
(`Uri.paths_survive_uris`), whatever reads the URI, as long as it takes URIs of that kind. The
grammar of URIs does, since an escaped text has only characters that may stand in a path
(`Uri.read?_ofPath`).
-/

namespace TypedNotation

open List Utf8

/-! ### Texts and bytes -/

namespace Utf8

variable {first second : Nat} {more rest : List Nat}

theorem decode_ascii (h : first < 0x80) :
    decode (first :: rest) = some (Char.ofNat first) :: decode rest := by
  rw [decode]
  simp [h, char?]

/-- A first byte that allows the second one and as many others as it announces make a character. -/
theorem decode_cons {lo hi : Nat} (hfirst : secondByte? first = some (lo, hi)) (hlo : lo ≤ second)
    (hhi : second ≤ hi) (hlength : more.length + 1 = following first)
    (hmore : ∀ b ∈ more, isContinuation b = true) :
    decode (first :: second :: more ++ rest) =
      some (Char.ofNat ((second :: more).foldl (fun n b => n * 0x40 + (b - 0x80))
        (leadingBits first))) ::
        decode rest := by
  have hbig : ¬first < 0x80 := by
    intro hsmall
    unfold secondByte? at hfirst
    repeat rw [if_neg (by omega)] at hfirst
    cases hfirst
  have htake : ((more ++ rest).take (following first - 1)).takeWhile isContinuation = more := by
    rw [← hlength, Nat.add_sub_cancel, take_left, takeWhile_eq_self_iff]
    exact hmore
  have hcontinuation : continuation first (second :: (more ++ rest)) = second :: more := by
    simp only [continuation, hfirst, hlo, hhi, and_self, if_true, htake]
  have hdrop : (second :: (more ++ rest)).drop (following first) = rest := by
    rw [← hlength, drop_succ_cons, drop_left]
  rw [cons_append, cons_append, decode]
  simp [hbig, hcontinuation, char?, hlength, hfirst, hdrop]

theorem isContinuation_low (n : Nat) : isContinuation (0x80 + n % 0x40) = true := by
  simp only [isContinuation, Bool.and_eq_true, decide_eq_true_eq]
  omega

/-- What the first byte of three allows for the second one leaves out the numbers that two bytes
have room for and the halves of surrogate pairs. -/
theorem exists_secondByte?_three {n : Nat} (hle : 0x800 ≤ n) (hlt : n < 0x10000)
    (hsurrogate : n < 0xD800 ∨ 0xDFFF < n) :
    ∃ lo hi, secondByte? (0xE0 + n / 0x1000) = some (lo, hi) ∧ lo ≤ 0x80 + n / 0x40 % 0x40 ∧
      0x80 + n / 0x40 % 0x40 ≤ hi := by
  unfold secondByte?
  rw [if_neg (by omega)]
  by_cases hleast : 0xE0 + n / 0x1000 = 0xE0
  · exact ⟨_, _, if_pos hleast, by omega, by omega⟩
  rw [if_neg hleast]
  by_cases hsurrogates : 0xE0 + n / 0x1000 = 0xED
  · exact ⟨_, _, if_pos hsurrogates, by omega, by omega⟩
  rw [if_neg hsurrogates]
  exact ⟨_, _, if_pos (by omega), by omega, by omega⟩

/-- What the first byte of four allows for the second one leaves out the numbers that three bytes
have room for and those above all characters. -/
theorem exists_secondByte?_four {n : Nat} (hle : 0x10000 ≤ n) (hlt : n < 0x110000) :
    ∃ lo hi, secondByte? (0xF0 + n / 0x40000) = some (lo, hi) ∧ lo ≤ 0x80 + n / 0x1000 % 0x40 ∧
      0x80 + n / 0x1000 % 0x40 ≤ hi := by
  unfold secondByte?
  rw [if_neg (by omega), if_neg (by omega), if_neg (by omega), if_neg (by omega)]
  by_cases hleast : 0xF0 + n / 0x40000 = 0xF0
  · exact ⟨_, _, if_pos hleast, by omega, by omega⟩
  rw [if_neg hleast]
  by_cases hmiddle : 0xF1 ≤ 0xF0 + n / 0x40000 ∧ 0xF0 + n / 0x40000 ≤ 0xF3
  · exact ⟨_, _, if_pos hmiddle, by omega, by omega⟩
  rw [if_neg hmiddle]
  exact ⟨_, _, if_pos (by omega), by omega, by omega⟩

/-- The bytes of a character are read as this character, whatever follows them. -/
theorem decode_encodeChar (c : Char) (rest : List Nat) :
    decode (encodeChar c ++ rest) = some c :: decode rest := by
  have hvalid : c.toNat < 0xD800 ∨ 0xDFFF < c.toNat ∧ c.toNat < 0x110000 := c.valid
  have hc : ∀ m, m = c.toNat → Char.ofNat m = c := by
    rintro m rfl
    exact Char.ofNat_toNat c
  unfold encodeChar
  generalize c.toNat = n at hvalid hc
  simp only
  by_cases hone : n < 0x80
  · rw [if_pos hone, singleton_append, decode_ascii hone, hc n rfl]
  rw [if_neg hone]
  by_cases htwo : n < 0x800
  · have hfirst : secondByte? (0xC0 + n / 0x40) = some (0x80, 0xBF) := if_pos (by omega)
    have hfollowing : following (0xC0 + n / 0x40) = 1 := if_pos (by omega)
    have hbits : leadingBits (0xC0 + n / 0x40) = n / 0x40 := by
      rw [leadingBits, if_pos (by omega), Nat.add_sub_cancel_left]
    rw [if_pos htwo, decode_cons hfirst (by omega) (by omega) (by simp [hfollowing]) (by simp),
      hbits]
    rw [hc _ (by simp only [foldl_cons, foldl_nil]; omega)]
  rw [if_neg htwo]
  by_cases hthree : n < 0x10000
  · obtain ⟨lo, hi, hfirst, hlo, hhi⟩ := exists_secondByte?_three (by omega) hthree (by omega)
    have hfollowing : following (0xE0 + n / 0x1000) = 2 := by
      rw [following, if_neg (by omega), if_pos (by omega)]
    have hbits : leadingBits (0xE0 + n / 0x1000) = n / 0x1000 := by
      rw [leadingBits, if_neg (by omega), if_pos (by omega), Nat.add_sub_cancel_left]
    rw [if_pos hthree, decode_cons hfirst hlo hhi (by simp [hfollowing])
      (by simp [isContinuation_low]), hbits]
    rw [hc _ (by simp only [foldl_cons, foldl_nil]; omega)]
  rw [if_neg hthree]
  obtain ⟨lo, hi, hfirst, hlo, hhi⟩ := exists_secondByte?_four (n := n) (by omega) (by omega)
  have hfollowing : following (0xF0 + n / 0x40000) = 3 := by
    rw [following, if_neg (by omega), if_neg (by omega)]
  have hbits : leadingBits (0xF0 + n / 0x40000) = n / 0x40000 := by
    rw [leadingBits, if_neg (by omega), if_neg (by omega), Nat.add_sub_cancel_left]
  rw [decode_cons hfirst hlo hhi (by simp [hfollowing]) (by simp [isContinuation_low]), hbits]
  rw [hc _ (by simp only [foldl_cons, foldl_nil]; omega)]

/-- **The bytes of a text are read as its characters.** -/
theorem decode_encode (cs : List Char) : decode (encode cs) = cs.map some := by
  induction cs with
  | nil => simp [encode, decode]
  | cons c cs ih => rw [encode, flatMap_cons, ← encode, decode_encodeChar, ih, map_cons]

theorem lenient_encode (cs : List Char) : lenient (encode cs) = cs := by
  rw [lenient, decode_encode, map_map]
  exact map_id'' (fun _ => rfl) cs

/-- The bytes of characters are bytes. -/
theorem lt_of_mem_encode {cs : List Char} {b : Nat} (h : b ∈ encode cs) : b < 256 := by
  obtain ⟨c, -, hb⟩ := mem_flatMap.1 h
  have hvalid : c.toNat < 0xD800 ∨ 0xDFFF < c.toNat ∧ c.toNat < 0x110000 := c.valid
  unfold encodeChar at hb
  simp only at hb
  split_ifs at hb <;> simp only [mem_cons, not_mem_nil, or_false] at hb <;> omega

/-- A text of ASCII characters has one byte for each of them. -/
theorem encode_of_ascii {cs : List Char} (h : ∀ c ∈ cs, c.toNat < 0x80) :
    encode cs = cs.map Char.toNat := by
  induction cs with
  | nil => rfl
  | cons c cs ih =>
    have hc : encodeChar c = [c.toNat] := if_pos (h c mem_cons_self)
    rw [encode, flatMap_cons, ← encode, hc, ih fun d hd => h d (mem_cons_of_mem c hd)]
    rfl

end Utf8

/-! ### Escapes -/

namespace Uri

theorem hexDigit_spec {n : Nat} (h : n < 16) :
    Numeral.hexDigit? (hexDigit n) = some n ∧ (hexDigit n).toNat < 0x80 := by
  have key : ∀ n : Fin 16, Numeral.hexDigit? (hexDigit n) = some n.val ∧
      (hexDigit n).toNat < 0x80 := by
    decide
  exact key ⟨n, h⟩

/-- A byte that stands for itself is a character of paths, and no percent sign. -/
theorem isPlain_spec {b : Nat} (h : isPlain b = true) :
    b < 0x80 ∧ (Char.ofNat b).toNat = b ∧ b ≠ '%'.toNat ∧ isPathChar (Char.ofNat b) = true := by
  have hlt : b < 0x80 := by
    simp only [isPlain, Bool.and_eq_true, decide_eq_true_eq] at h
    exact h.1
  have key : ∀ b : Fin 0x80, isPlain b = true →
      (Char.ofNat b).toNat = b ∧ b.val ≠ '%'.toNat ∧ isPathChar (Char.ofNat b) = true := by
    decide +kernel
  exact ⟨hlt, key ⟨b, hlt⟩ h⟩

/-- What a byte is written as has only ASCII characters. -/
theorem ascii_of_mem_escape {b : Nat} (hb : b < 256) {c : Char} (hc : c ∈ escape b) :
    c.toNat < 0x80 := by
  unfold escape at hc
  split at hc
  next hplain =>
    obtain ⟨hlt, htoNat, -, -⟩ := isPlain_spec hplain
    rw [mem_singleton.1 hc, htoNat]
    exact hlt
  next =>
    simp only [mem_cons, not_mem_nil, or_false] at hc
    rcases hc with rfl | rfl | rfl
    · decide
    · exact (hexDigit_spec (by omega)).2
    · exact (hexDigit_spec (by omega)).2

theorem percentDecode_cons_of_ne {b : Nat} (hb : b ≠ '%'.toNat) (rest : List Nat) :
    percentDecode (b :: rest) = b :: percentDecode rest := by
  rcases rest with _ | ⟨high, _ | ⟨low, rest⟩⟩
  · rfl
  · rfl
  · rw [percentDecode, if_neg hb]

/-- The text of a byte is read as this byte, whatever follows it. -/
theorem percentDecode_escape {b : Nat} (hb : b < 256) (rest : List Nat) :
    percentDecode ((escape b).map Char.toNat ++ rest) = b :: percentDecode rest := by
  unfold escape
  split
  next hplain =>
    obtain ⟨-, htoNat, hne, -⟩ := isPlain_spec hplain
    rw [map_singleton, singleton_append, htoNat, percentDecode_cons_of_ne hne]
  next =>
    have hescaped : escaped? (hexDigit (b / 16)).toNat (hexDigit (b % 16)).toNat = some b := by
      have hhigh := (hexDigit_spec (n := b / 16) (by omega)).1
      have hlow := (hexDigit_spec (n := b % 16) (by omega)).1
      simp only [escaped?, Char.ofNat_toNat, hhigh, hlow, Option.bind_eq_bind, Option.bind_some]
      exact congrArg some (Nat.div_add_mod b 16)
    simp only [map_cons, map_nil, cons_append, nil_append, percentDecode, if_true,
      hescaped]

/-- **Escaped bytes are read back.** -/
theorem percentDecode_percentEncode {bytes : List Nat} (h : ∀ b ∈ bytes, b < 256) :
    percentDecode (encode (percentEncode bytes)) = bytes := by
  have hascii : ∀ c ∈ percentEncode bytes, c.toNat < 0x80 := by
    intro c hc
    obtain ⟨b, hb, hc⟩ := mem_flatMap.1 hc
    exact ascii_of_mem_escape (h b hb) hc
  rw [encode_of_ascii hascii]
  clear hascii
  induction bytes with
  | nil => rfl
  | cons b bytes ih =>
    rw [percentEncode, flatMap_cons, ← percentEncode, map_append,
      percentDecode_escape (h b mem_cons_self), ih fun d hd => h d (mem_cons_of_mem b hd)]

/-- A text with every byte escaped that does not stand for itself. -/
def escapeText (text : String) : String :=
  String.ofList (percentEncode (encode text.toList))

/-- A text with its escapes read. -/
def unescapeText (text : String) : String :=
  String.ofList (lenient (percentDecode (encode text.toList)))

theorem unescapeText_escapeText (text : String) : unescapeText (escapeText text) = text := by
  rw [unescapeText, escapeText, String.toList_ofList,
    percentDecode_percentEncode fun b => lt_of_mem_encode, lenient_encode,
    String.ofList_toList]

/-! ### URIs of files -/

theorem ofPath_text (p : Path) :
    (ofPath p).text = fileScheme ++ escapeText (String.ofList (slashed p)) := by
  rw [ofPath, escapeText, String.toList_ofList]

theorem path_of_file (text : String) : path ⟨fileScheme ++ text⟩ = ⟨unescapeText text⟩ := by
  have hafter : after? fileScheme.toList (fileScheme ++ text).toList = some text.toList := by
    rw [after?, String.toList_append, if_pos (List.isPrefixOf_iff_prefix.2 (prefix_append _ _)),
      drop_left]
  simp only [path, hafter, unescapeText]

/-- The path of the URI of a file is the path with slashes only, made absolute. -/
theorem path_ofPath (p : Path) : (ofPath p).path = ⟨String.ofList (slashed p)⟩ := by
  have h := path_of_file (escapeText (String.ofList (slashed p)))
  rwa [← ofPath_text, unescapeText_escapeText] at h

theorem slashed_of_isAbsolute {p : Path} (habsolute : p.isAbsolute = true)
    (hplain : '\\' ∉ p.text.toList) : slashed p = p.text.toList := by
  have hmap : (p.text.toList.map fun c => if c = '\\' then '/' else c) = p.text.toList := by
    refine (map_congr_left fun c hc => if_neg ?_).trans (map_id _)
    rintro rfl
    exact hplain hc
  rw [slashed, hmap]
  exact if_pos (beq_iff_eq.1 habsolute)

theorem exists_slashed_eq_cons (p : Path) : ∃ cs, slashed p = '/' :: cs := by
  unfold slashed
  simp only
  split
  next hhead =>
    obtain ⟨cs, hcs⟩ := head?_eq_some_iff.1 hhead
    exact ⟨cs, hcs⟩
  next => exact ⟨_, rfl⟩

/-- What a byte is written as may stand in a path. -/
theorem skip?_escape {b : Nat} (hb : b < 256) (rest : List Char) :
    skip? isPathChar (escape b ++ rest) = skip? isPathChar rest := by
  unfold escape
  split
  next hplain =>
    obtain ⟨-, htoNat, hne, hchar⟩ := isPlain_spec hplain
    have hpercent : Char.ofNat b ≠ '%' := by
      intro h
      rw [h] at htoNat
      exact hne htoNat.symm
    rw [singleton_append, skip?, if_neg hpercent, if_pos hchar]
    intro high low rest' h
    exact absurd h hpercent
  next =>
    have hhigh := (hexDigit_spec (n := b / 16) (by omega)).1
    have hlow := (hexDigit_spec (n := b % 16) (by omega)).1
    simp [skip?, hhigh, hlow]

theorem skip?_percentEncode {bytes : List Nat} (h : ∀ b ∈ bytes, b < 256) :
    skip? isPathChar (percentEncode bytes) = some [] := by
  induction bytes with
  | nil => rfl
  | cons b bytes ih =>
    rw [percentEncode, flatMap_cons, ← percentEncode, skip?_escape (h b mem_cons_self),
      ih fun d hd => h d (mem_cons_of_mem b hd)]

/-- The URI of a file is one by the grammar, with an empty authority and a path. -/
theorem read?_ofPath (p : Path) : read? (ofPath p).text = some (ofPath p) := by
  obtain ⟨cs, hcs⟩ := exists_slashed_eq_cons p
  have hpath : skip? isPathChar (percentEncode (encode (slashed p))) = some [] :=
    skip?_percentEncode fun b => lt_of_mem_encode
  have hslash : percentEncode (encode (slashed p)) =
      '/' :: percentEncode (encode cs) := by
    rw [hcs]
    rfl
  have hreference : isReference (ofPath p).text.toList = true := by
    rw [ofPath, String.toList_append, String.toList_ofList, hslash]
    rw [hslash] at hpath
    have htail : isTail ('/' :: percentEncode (encode cs)) = true := by
      rw [isTail, hpath]
    exact htail
  rw [read?, if_pos hreference]

/-- A reader of URIs takes the URI of a path that starts at the root and has no backslash, and
leaves its text as it is. -/
def ReadsFileUris (read : String → Option Uri) : Prop :=
  ∀ p : Path, p.isAbsolute = true → '\\' ∉ p.text.toList → read (ofPath p).text = some (ofPath p)

/-- A reader by the grammar of URIs is such a one. -/
theorem readsFileUris_read? : ReadsFileUris read? :=
  fun p _ _ => read?_ofPath p

/-- **Paths survive the trip through URIs.** Any text is the same after its bytes have been escaped
and the escapes read. So a path that starts at the root and has no backslash is spelled by its URI.
The URI is read by whatever reads such URIs, and the path is the path of what is read; and two such
paths that differ have different URIs. -/
theorem paths_survive_uris {read : String → Option Uri} (hread : ReadsFileUris read) :
    (∀ text : String, unescapeText (escapeText text) = text) ∧
      (∀ p : Path, p.isAbsolute = true → '\\' ∉ p.text.toList →
        (ofPath p).text = fileScheme ++ escapeText p.text ∧ read (ofPath p).text = some (ofPath p) ∧
          (ofPath p).path = p) ∧
      ∀ p q : Path, p.isAbsolute = true → '\\' ∉ p.text.toList → q.isAbsolute = true →
        '\\' ∉ q.text.toList → p ≠ q → ofPath p ≠ ofPath q := by
  have hslashed : ∀ p : Path, p.isAbsolute = true → '\\' ∉ p.text.toList →
      String.ofList (slashed p) = p.text := by
    intro p habsolute hplain
    rw [slashed_of_isAbsolute habsolute hplain, String.ofList_toList]
  refine ⟨unescapeText_escapeText, fun p habsolute hplain => ⟨?_, hread p habsolute hplain, ?_⟩, ?_⟩
  · rw [ofPath_text, hslashed p habsolute hplain]
  · rw [path_ofPath, hslashed p habsolute hplain]
  · intro p q hp hp' hq hq' hne heq
    have hpaths := congrArg path heq
    rw [path_ofPath, path_ofPath, hslashed p hp hp', hslashed q hq hq'] at hpaths
    exact hne hpaths

/-- A name with two bytes for one letter, a blank and what looks like an escape itself. -/
theorem paths_survive_uris_of_percent_sign :
    let p : Path := ⟨"/ü/100%25 "⟩
    let q : Path := ⟨"/ü/100% "⟩
    p.isAbsolute = true ∧ '\\' ∉ p.text.toList ∧ (ofPath p).text = "file:///%C3%BC/100%2525%20" ∧
      read? (ofPath p).text = some (ofPath p) ∧ (ofPath p).path = p ∧ ofPath p ≠ ofPath q := by
  intro p q
  have hp : p.isAbsolute = true ∧ '\\' ∉ p.text.toList := by decide
  have hq : q.isAbsolute = true ∧ '\\' ∉ q.text.toList := by decide
  have hne : p ≠ q := fun h => absurd (congrArg Path.text h) (by decide)
  obtain ⟨-, hpaths, hdiffer⟩ := paths_survive_uris readsFileUris_read?
  refine ⟨hp.1, hp.2, by decide +kernel, (hpaths p hp.1 hp.2).2.1, (hpaths p hp.1 hp.2).2.2, ?_⟩
  exact hdiffer p q hp.1 hp.2 hq.1 hq.2 hne

end Uri

end TypedNotation
