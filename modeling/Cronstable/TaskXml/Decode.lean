import Mathlib.Tactic

/-!
# The text of an export

`decode_task_xml` decides the encoding of a Task Scheduler export from its bytes: by a byte-order
mark, or else by trial, UTF-8 before UTF-16. A document in UTF-16 without a mark is read back
exactly when its bytes are not valid UTF-8 as well.
-/

namespace Cronstable.TaskXml

open List Option String

/-! ## Codecs -/

/-- `bytes.decode("utf-8")`. -/
def utf8Decode (data : List UInt8) : Option (List Char) :=
  data.toByteArray.utf8Decode?.map Array.toList

/-- A code unit of UTF-16 in two bytes. -/
def unitBytes (bigEndian : Bool) (u : ℕ) : List UInt8 :=
  if bigEndian then [.ofNat (u / 256), .ofNat u] else [.ofNat u, .ofNat (u / 256)]

/-- The code unit that two bytes make up. -/
def codeUnit (bigEndian : Bool) (a b : UInt8) : ℕ :=
  if bigEndian then a.toNat * 256 + b.toNat else b.toNat * 256 + a.toNat

/-- The code units of a character: one, or two surrogates. -/
def codeUnits (c : Char) : List ℕ :=
  if c.toNat < 0x10000 then [c.toNat]
  else [0xD800 + (c.toNat - 0x10000) / 0x400, 0xDC00 + (c.toNat - 0x10000) % 0x400]

/-- `str.encode("utf-16-le")`, or `"utf-16-be"`. -/
def utf16Encode (bigEndian : Bool) (text : List Char) : List UInt8 :=
  (text.flatMap codeUnits).flatMap (unitBytes bigEndian)

/-- `bytes.decode("utf-16-le")`, or `"utf-16-be"`. -/
def utf16Decode (bigEndian : Bool) : List UInt8 → Option (List Char)
  | [] => some []
  | [_] => none
  | a :: b :: rest =>
    let u := codeUnit bigEndian a b
    if u < 0xD800 ∨ 0xE000 ≤ u then (utf16Decode bigEndian rest).map (Char.ofNat u :: ·)
    else match rest with
      | c :: d :: rest =>
        let v := codeUnit bigEndian c d
        if u < 0xDC00 ∧ 0xDC00 ≤ v ∧ v < 0xE000 then
          (utf16Decode bigEndian rest).map
            (Char.ofNat (0x10000 + (u - 0xD800) * 0x400 + (v - 0xDC00)) :: ·)
        else none
      | _ => none

/-- The encodings of a document. -/
inductive Encoding
  | utf8 (mark : Bool)
  | utf16 (bigEndian : Bool)
  | utf16le

def Encoding.encode (text : List Char) : Encoding → List UInt8
  | utf8 mark => (if mark then [0xEF, 0xBB, 0xBF] else []) ++ text.flatMap String.utf8EncodeChar
  | utf16 bigEndian => unitBytes bigEndian 0xFEFF ++ utf16Encode bigEndian text
  | utf16le => utf16Encode false text

/-- The trial of the encodings that have no mark. What is decoded must look like a document. -/
def tryCandidates (data : List UInt8) (source : String) : Except String (List Char) :=
  match [utf8Decode data, utf16Decode false data].findSome? (·.filter ('<' ∈ ·)) with
  | some text => .ok text
  | none => .error (source ++ ": could not be decoded as UTF-8 or UTF-16. Re-export it with " ++
      "`schtasks /query /TN <task> /XML ONE > task.xml`.")

def decodeTaskXml (data : List UInt8) (source : String) : Except String (List Char) :=
  -- the encoding that a mark announces, and what follows the mark in it
  let marked : Option (String × Option (List Char)) :=
    if data.take 2 = [0xFF, 0xFE] then some ("utf-16", utf16Decode false (data.drop 2))
    else if data.take 2 = [0xFE, 0xFF] then some ("utf-16", utf16Decode true (data.drop 2))
    else if data.take 3 = [0xEF, 0xBB, 0xBF] then some ("utf-8-sig", utf8Decode (data.drop 3))
    else none
  match marked with
  | some (_, some text) => .ok text
  | some (encoding, none) => .error (source ++ ": begins with a " ++ encoding ++
      " byte-order mark but does not decode as " ++ encoding)
  | none => tryCandidates data source

/-! ## Round trips -/

lemma utf8Decode_encode (text : List Char) :
    utf8Decode (text.flatMap utf8EncodeChar) = some text := by
  have hdecode : text.utf8Encode.utf8Decode? = some text.toArray := List.utf8Decode?_utf8Encode
  rw [List.utf8Encode] at hdecode
  rw [utf8Decode, hdecode]
  rfl

lemma eq_of_utf8Decode {data : List UInt8} {text : List Char} (h : utf8Decode data = some text) :
    data = text.flatMap utf8EncodeChar := by
  obtain ⟨chars, hchars, rfl⟩ := map_eq_some_iff.mp h
  have hencode : (data.toByteArray.utf8Decode?.get (by simp [hchars])).toList.utf8Encode =
      data.toByteArray := ByteArray.utf8Encode_get_utf8Decode?
  have hbytes := congrArg (Array.toList ∘ ByteArray.data) hencode
  simpa [hchars, List.utf8Encode] using hbytes.symm

/-- A byte of ASCII begins no character but its own. -/
theorem eq_of_utf8EncodeChar {c : Char} {b : UInt8} {rest tail : List UInt8} (hb : b.toNat < 0x80)
    (h : utf8EncodeChar c ++ tail = b :: rest) : c.toNat = b.toNat := by
  unfold utf8EncodeChar at h
  dsimp only at h
  split_ifs at h
  all_goals
    obtain ⟨rfl, -⟩ := cons.inj h
    have hval : c.toNat = c.val.toNat := rfl
    simp only [UInt8.toNat_ofNat'] at hb ⊢
    omega

lemma codeUnit_unitBytes (bigEndian : Bool) {u : ℕ} (hu : u < 0x10000) :
    ∃ a b, unitBytes bigEndian u = [a, b] ∧ codeUnit bigEndian a b = u := by
  cases bigEndian <;> refine ⟨_, _, rfl, ?_⟩ <;> simp [codeUnit] <;> omega

lemma utf16Decode_append (bigEndian : Bool) (c : Char) (rest : List UInt8) :
    utf16Decode bigEndian ((codeUnits c).flatMap (unitBytes bigEndian) ++ rest) =
      (utf16Decode bigEndian rest).map (c :: ·) := by
  have hvalid : c.toNat < 0xD800 ∨ 0xDFFF < c.toNat ∧ c.toNat < 0x110000 := c.valid
  unfold codeUnits
  split
  case isTrue hone =>
    obtain ⟨a, b, hbytes, hunit⟩ := codeUnit_unitBytes bigEndian hone
    have hplain : c.toNat < 0xD800 ∨ 0xE000 ≤ c.toNat := by omega
    rw [flatMap_singleton, hbytes, utf16Decode.eq_def]
    simp [hunit, hplain]
  case isFalse htwo =>
    obtain ⟨a, b, hhigh, hu⟩ := codeUnit_unitBytes bigEndian
      (show 0xD800 + (c.toNat - 0x10000) / 0x400 < 0x10000 by omega)
    obtain ⟨a', b', hlow, hv⟩ := codeUnit_unitBytes bigEndian
      (show 0xDC00 + (c.toNat - 0x10000) % 0x400 < 0x10000 by omega)
    simp only [flatMap_cons, flatMap_nil, append_nil, hhigh, hlow, cons_append, nil_append,
      utf16Decode, hu, hv]
    rw [if_neg (by omega), if_pos (by omega)]
    have hback : 0x10000 + (0xD800 + (c.toNat - 0x10000) / 0x400 - 0xD800) * 0x400 +
        (0xDC00 + (c.toNat - 0x10000) % 0x400 - 0xDC00) = c.toNat := by omega
    rw [hback, Char.ofNat_toNat]

lemma utf16Decode_encode (bigEndian : Bool) (text : List Char) :
    utf16Decode bigEndian (utf16Encode bigEndian text) = some text := by
  induction text with
  | nil => rfl
  | cons c text ih =>
    unfold utf16Encode at ih ⊢
    rw [flatMap_cons, flatMap_append, utf16Decode_append, ih]
    rfl

/-! ## Documents -/

/-- What is exported begins with a tag, and has no NUL. -/
structure Document where
  text : List Char
  starts : text.head? = some '<'
  noNul : '\x00' ∉ text

/-- A document in UTF-16 without a mark whose bytes are valid UTF-8 is not read back: its first
character is followed by a zero byte. -/
theorem ne_of_utf8Decode {rest text : List Char} (hnul : '\x00' ∉ '<' :: rest)
    (h : utf8Decode (utf16Encode false ('<' :: rest)) = some text) :
    '<' ∈ text ∧ text ≠ '<' :: rest := by
  have hbytes : 0x3C :: 0x00 :: utf16Encode false rest = text.flatMap utf8EncodeChar :=
    eq_of_utf8Decode h
  -- the bytes begin with this character, and go on as the text does
  have hfirst {b : UInt8} {data : List UInt8} {text : List Char} (hb : b.toNat < 0x80)
      (hbytes : b :: data = text.flatMap utf8EncodeChar) : Char.ofNat b.toNat ∈ text := by
    cases text with
    | nil => cases hbytes
    | cons c text =>
      rw [← eq_of_utf8EncodeChar hb hbytes.symm, Char.ofNat_toNat]
      exact mem_cons_self
  refine ⟨hfirst (by decide) hbytes, ?_⟩
  rintro rfl
  exact hnul (mem_cons_of_mem _ (hfirst (by decide) (cons.inj hbytes).2))

/-- **A document is read back unless its bytes are valid in an encoding that is tried before.** -/
theorem read_back_iff (doc : Document) (source : String) (enc : Encoding) :
    decodeTaskXml (enc.encode doc.text) source = .ok doc.text ↔
      (enc = .utf16le → ¬ (utf16Encode false doc.text).toByteArray.IsValidUTF8) := by
  obtain ⟨text, hstarts, hnul⟩ := doc
  obtain ⟨rest, rfl⟩ := head?_eq_some_iff.mp hstarts
  have hutf8 := utf8Decode_encode ('<' :: rest)
  cases enc with
  | utf8 mark =>
    refine iff_of_true ?_ nofun
    cases mark with
    | false =>
      show tryCandidates (('<' :: rest).flatMap utf8EncodeChar) source = _
      rw [tryCandidates, hutf8]
      simp [filter_some]
    | true =>
      rw [Encoding.encode, decodeTaskXml]
      simp [-flatMap_cons, hutf8]
  | utf16 bigEndian =>
    refine iff_of_true ?_ nofun
    cases bigEndian <;> simp [Encoding.encode, decodeTaskXml, unitBytes, utf16Decode_encode]
  | utf16le =>
    have htrial : decodeTaskXml (Encoding.utf16le.encode ('<' :: rest)) source =
      tryCandidates (utf16Encode false ('<' :: rest)) source := rfl
    rw [htrial, ← ByteArray.isSome_utf8Decode?_iff, tryCandidates, utf16Decode_encode]
    cases hdecode : utf8Decode (utf16Encode false ('<' :: rest)) with
    | none => simp [filter_some, map_eq_none_iff.mp hdecode]
    | some text =>
      obtain ⟨chars, hchars, -⟩ := map_eq_some_iff.mp hdecode
      obtain ⟨hmem, hne⟩ := ne_of_utf8Decode hnul hdecode
      simp [filter_some, hchars, hmem, hne]

/-- A tag in UTF-16 is read with a NUL after every character. -/
theorem tag_misread :
    decodeTaskXml (Encoding.utf16le.encode ['<', 'a', '/', '>']) "task.xml" ≠
      .ok ['<', 'a', '/', '>'] := by
  decide +kernel

end Cronstable.TaskXml
