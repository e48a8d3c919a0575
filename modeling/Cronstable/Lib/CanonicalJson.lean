import Cronstable.Lib.PyValue
import Mathlib.Data.List.Sort

/-!
# Canonical JSON

The one text that an encoder with sorted keys, ASCII output and compact separators gives for a
value. The text of an object is a list of pairs between braces, joined by commas, and a pair does
not depend on its neighbours. So the text can be put together from the texts of contiguous runs of
the sorted keys: `joinComma_flatten` is the joining, `slice_objectText` takes a run's own braces
off, and `encode_dict_eq` is the object as its sorted keys list it.
-/

namespace CanonicalJson

open List PyValue

/-- An ASCII text. -/
abbrev Text := List Char

/-- Four hexadecimal digits. -/
def hex4 (n : ℕ) : Text :=
  [n / 4096 % 16, n / 256 % 16, n / 16 % 16, n % 16].map Nat.digitChar

/-- A character of a string, escaped where it is not printable ASCII. Characters beyond the basic
plane become two surrogates. -/
def escapeChar (c : Char) : Text :=
  if c = '\x22' ∨ c = '\x5c' then ['\x5c', c]
  else if c = '\n' then ['\x5c', 'n']
  else if c = '\r' then ['\x5c', 'r']
  else if c = '\t' then ['\x5c', 't']
  else if c = '\x0c' then ['\x5c', 'f']
  else if c = '\x08' then ['\x5c', 'b']
  else if ' ' ≤ c ∧ c ≤ '~' then [c]
  else if c.toNat < 0x10000 then '\x5c' :: 'u' :: hex4 c.toNat
  else
    '\x5c' :: 'u' :: hex4 (0xd800 + (c.toNat - 0x10000) / 0x400) ++
      '\x5c' :: 'u' :: hex4 (0xdc00 + (c.toNat - 0x10000) % 0x400)

/-- A string literal. -/
def encodeString (s : String) : Text := '\x22' :: s.toList.flatMap escapeChar ++ ['\x22']

/-- `",".join(parts)`. -/
def joinComma : List Text → Text
  | [] => []
  | [x] => x
  | x :: y :: rest => x ++ ',' :: joinComma (y :: rest)

/-- A key with the text of its value. -/
def pairText (p : String × Text) : Text := encodeString p.1 ++ ':' :: p.2

/-- An object, from the texts of its values. -/
def objectText (pairs : List (String × Text)) : Text :=
  '\x7b' :: joinComma ((pairs.insertionSort fun p q => p.1 ≤ q.1).map pairText) ++ ['\x7d']

section Encode

-- how a finite float is printed
variable (floatRepr : Rat → Text)

/-- The text of a value that is neither a list nor a dictionary. -/
def atomText : PyValue → Text
  | .null => "null".toList
  | .bool b => (if b then "true" else "false").toList
  | .int n => (toString n).toList
  | .float (.finite q) => floatRepr q
  | .float (.infinity negative) => (if negative then "-Infinity" else "Infinity").toList
  | .float .nan => "NaN".toList
  | .str s => encodeString s
  | _ => []

/-- The canonical text of a value. -/
def encode : PyValue → Text :=
  PyValue.fold (atomText floatRepr) (fun elems => '[' :: joinComma elems ++ [']'])
    fun _ items => objectText items

example : encode (fun _ => []) (.dict 7 [("b", .list [.int 3, .null]), ("a", .str "x\n")]) =
    "\x7b\"a\":\"x\\n\",\"b\":[3,null]\x7d".toList := by
  decide +kernel

lemma encode_dict (a : ℕ) (items : Items) :
    encode floatRepr (.dict a items) =
      objectText (items.map fun p => (p.1, encode floatRepr p.2)) :=
  fold_dict _ _ _ a items

/-- The text of a value does not depend on the identity of its dictionaries. -/
theorem encode_strip (v : PyValue) : encode floatRepr v.strip = encode floatRepr v := by
  induction v using induction with
  | atom v h => rw [strip_atom h]
  | list elems ih =>
    have h : elems.map (encode floatRepr ∘ strip) = elems.map (encode floatRepr) :=
      map_congr_left ih
    rw [strip_list]
    unfold encode at h ⊢
    rw [fold_list, fold_list, map_map, h]
  | dict a items ih =>
    rw [strip_dict, encode_dict, encode_dict, map_map]
    congr 1
    exact map_congr_left fun p hp => Prod.ext rfl (ih p hp)

end Encode

section Join

lemma joinComma_cons {x : Text} {rest : List Text} (h : rest ≠ []) :
    joinComma (x :: rest) = x ++ ',' :: joinComma rest := by
  obtain ⟨y, rest, rfl⟩ := exists_cons_of_ne_nil h
  rfl

lemma joinComma_append {xs ys : List Text} (hx : xs ≠ []) (hy : ys ≠ []) :
    joinComma (xs ++ ys) = joinComma xs ++ ',' :: joinComma ys := by
  induction xs with
  | nil => exact absurd rfl hx
  | cons x xs ih =>
    by_cases hnil : xs = []
    · rw [hnil, singleton_append, joinComma_cons hy]
      rfl
    · rw [cons_append, joinComma_cons (by simp [hnil]), ih hnil, joinComma_cons hnil,
        append_assoc, cons_append]

/-- Parts that are themselves joined by commas. -/
theorem joinComma_flatten {groups : List (List Text)} (h : ∀ g ∈ groups, g ≠ []) :
    joinComma (groups.map joinComma) = joinComma groups.flatten := by
  induction groups with
  | nil => rfl
  | cons g groups ih =>
    obtain ⟨hg, hrest⟩ := forall_mem_cons.mp h
    by_cases hnil : groups = []
    · simp [hnil, joinComma]
    · obtain ⟨g', groups, rfl⟩ := exists_cons_of_ne_nil hnil
      have hflat : (g' :: groups).flatten ≠ [] := by
        simp [(forall_mem_cons.mp hrest).1]
      rw [map_cons, joinComma_cons (by simp), ih hrest, ← joinComma_append hg hflat]
      rfl

/-- The text of an object with sorted pairs, without its braces. -/
theorem slice_objectText {pairs : List (String × Text)}
    (h : pairs.Pairwise fun p q => p.1 ≤ q.1) :
    (objectText pairs).tail.dropLast = joinComma (pairs.map pairText) := by
  rw [objectText, List.Pairwise.insertionSort_eq h, cons_append, tail_cons,
    dropLast_concat]

/-- The text of an object, as its sorted keys list it. -/
theorem encode_dict_eq (floatRepr : Rat → Text) (a : ℕ) {items : Items}
    (h : items.keys.Nodup) :
    encode floatRepr (.dict a items) =
      '\x7b' :: joinComma ((items.keys.insertionSort (· ≤ ·)).map fun k =>
        pairText (k, encode floatRepr (items.get k))) ++ ['\x7d'] := by
  have hitems : (items.map fun p => (p.1, encode floatRepr p.2)) =
      items.keys.map fun k => (k, encode floatRepr (items.get k)) := by
    rw [Items.keys, map_map]
    refine map_congr_left fun p hp => ?_
    rw [Function.comp_apply, Items.get_of_mem h hp]
  -- sorting the pairs by key is sorting the keys, and then pairing
  have hsort := map_insertionSort (· ≤ ·)
    (fun p q : String × Text => p.1 ≤ q.1) (fun k => (k, encode floatRepr (items.get k)))
    items.keys fun _ _ _ _ => Iff.rfl
  rw [encode_dict, hitems, objectText, ← hsort, map_map]
  rfl

end Join

end CanonicalJson
