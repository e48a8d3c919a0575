import Mathlib.Algebra.Order.BigOperators.Group.List
import Mathlib.Tactic
import Cronstable.Lib.PyText

/-!
# The arguments of a converted task

`windows_argv_split` reads back what `subprocess.list2cmdline` has quoted, with two exceptions: it
drops empty arguments, and it splits at any whitespace, while the quoting looks for the blank and
the tab (`split_list2cmdline_iff`, `arguments_lost`).
-/

namespace Cronstable.TaskXml

open List

open PyText (isSpace)

/-- The escape. -/
def backslash : Char := Char.ofNat 92

/-- The double quote. -/
def quote : Char := Char.ofNat 34

/-! ## Quoting -/

/-- One character in `list2cmdline`: the text of the argument and the backslashes held back. -/
def quoteChar (p : List Char × ℕ) (c : Char) : List Char × ℕ :=
  if c = backslash then (p.1, p.2 + 1)
  else if c = quote then (p.1 ++ replicate (2 * p.2) backslash ++ [backslash, quote], 0)
  else (p.1 ++ replicate p.2 backslash ++ [c], 0)

/-- `needquote`. -/
def needQuote (arg : List Char) : Bool := arg.contains ' ' || arg.contains '\t' || arg.isEmpty

/-- One argument in `list2cmdline`. -/
def quoteArg (arg : List Char) : List Char :=
  let p := arg.foldl quoteChar ([], 0)
  let text := p.1 ++ replicate p.2 backslash
  if needQuote arg then quote :: (text ++ replicate p.2 backslash ++ [quote]) else text

/-- `subprocess.list2cmdline`. -/
def list2cmdline (args : List (List Char)) : List Char :=
  args.foldl (fun result arg =>
    (if result.isEmpty then result else result ++ [' ']) ++ quoteArg arg) []

/-! ## Splitting -/

/-- The variables of the loop of `windows_argv_split`. -/
structure Scan where
  args : List (List Char) := []
  current : List (List Char) := []
  backslashes : ℕ := 0
  inQuotes : Bool := false
  started : Bool := false

namespace Scan

/-- The backslashes that no quote follows stand for themselves. -/
def flush (s : Scan) : Scan :=
  { s with current := s.current ++ [replicate s.backslashes backslash], backslashes := 0 }

/-- `args` with the current argument, if there is one. -/
def push (s : Scan) : List (List Char) :=
  if s.current ≠ [] ∨ s.started then s.args ++ [s.current.flatten] else s.args

/-- One turn of the loop. -/
def char (s : Scan) (c : Char) : Scan :=
  if c = backslash then { s with backslashes := s.backslashes + 1 }
  else if c = quote then
    let current := s.current ++ [replicate (s.backslashes / 2) backslash]
    if s.backslashes % 2 = 1 then { s with current := current ++ [[quote]], backslashes := 0 }
    else { s with current, backslashes := 0, inQuotes := !s.inQuotes, started := true }
  else
    let s := s.flush
    if isSpace c ∧ ¬ s.inQuotes then { s with args := s.push, current := [], started := false }
    else { s with current := s.current ++ [[c]], started := true }

end Scan

/-- `windows_argv_split`. -/
def windowsArgvSplit (text : List Char) : List (List Char) :=
  let s := (text.foldl Scan.char {}).flush
  match s.push.filter (· ≠ []) with
  | [] => if s.started then [[]] else []
  | args => args

/-! ## One argument -/

variable {s t : Scan} {base args : List (List Char)} {arg : List Char} {n : ℕ} {quoted : Bool}

/-- Backslashes are held back. -/
theorem foldl_backslashes (s : Scan) (n : ℕ) :
    (replicate n backslash).foldl Scan.char s = { s with backslashes := s.backslashes + n } := by
  induction n generalizing s with
  | zero => rfl
  | succ n ih =>
    rw [replicate_succ, foldl_cons, ih]
    simp [Scan.char, Nat.add_assoc, Nat.add_comm 1]

/-- The arguments if the text ends here. -/
theorem push_flush (s : Scan) :
    s.flush.push = s.args ++ [s.current.flatten ++ replicate s.backslashes backslash] := by
  simp [Scan.push, Scan.flush]

/-- What the splitter has read of an argument. Outside quotes it drops whitespace, and no other
argument has begun if there was none. -/
structure Reads (s : Scan) (n : ℕ) (base : List (List Char)) (quoted : Bool) (arg : List Char) :
    Prop where
  backslashes : s.backslashes = 0
  inQuotes : s.inQuotes = quoted
  flat : s.args.flatten ++ s.current.flatten ++ replicate n backslash =
    base.flatten ++ arg.filter fun c => quoted || !isSpace c
  args : (∀ c ∈ arg, quoted || !isSpace c) → s.args = base

/-- The text of an argument is read as the argument, with the backslashes that are held back. -/
theorem Reads.fold (h : Reads s 0 base quoted []) (arg : List Char) :
    Reads ((arg.foldl quoteChar ([], 0)).1.foldl Scan.char s) (arg.foldl quoteChar ([], 0)).2 base
      quoted arg := by
  induction arg using reverseRecOn with
  | nil => exact h
  | append_singleton arg c ih =>
    rw [foldl_append, foldl_cons, foldl_nil]
    generalize arg.foldl quoteChar ([], 0) = p at ih ⊢
    generalize ht : p.1.foldl Scan.char s = t at ih
    obtain ⟨hzero, hquotes, hflat, hargs⟩ := ih
    replace hargs (hkept : ∀ d ∈ arg ++ [c], quoted || !isSpace d) : t.args = base :=
      hargs fun d hd => hkept d (mem_append_left _ hd)
    have hback : isSpace backslash = false := by decide
    have hquote : isSpace quote = false := by decide
    have hne : quote ≠ backslash := by decide
    unfold quoteChar
    split_ifs with hc hc'
    · -- held back
      subst hc ht
      refine ⟨hzero, hquotes, ?_, hargs⟩
      rw [filter_append, ← append_assoc, ← hflat, replicate_succ']
      simp [hback]
    · -- an odd number of backslashes, of which the quote leaves half
      subst hc'
      have hodd : (2 * p.2 + 1) / 2 = p.2 := by omega
      have hstep : (p.1 ++ replicate (2 * p.2) backslash ++ [backslash, quote]).foldl Scan.char s =
          { t with current := t.current ++ [replicate p.2 backslash, [quote]] } := by
        simp [foldl_backslashes, ht, Scan.char, hzero, hne, hodd]
      rw [hstep]
      refine ⟨hzero, hquotes, ?_, hargs⟩
      rw [filter_append, ← append_assoc, ← hflat]
      simp [hquote]
    · have hstep : (p.1 ++ replicate p.2 backslash ++ [c]).foldl Scan.char s =
          Scan.char { t with backslashes := p.2 } c := by
        simp [foldl_backslashes, ht, hzero]
      rw [hstep, Scan.char, if_neg hc, if_neg hc']
      have hword := push_flush { t with backslashes := p.2 }
      simp only [Scan.flush, hquotes] at hword ⊢
      split_ifs with hspace
      · -- whitespace ends the argument
        obtain ⟨hspace, hout⟩ := hspace
        refine ⟨rfl, rfl, ?_, fun hkept => absurd (hkept c (by simp)) (by simp [hspace, hout])⟩
        rw [hword, filter_append, ← append_assoc, ← hflat]
        simp [hspace, hout]
      · refine ⟨rfl, rfl, ?_, hargs⟩
        rw [filter_append, ← append_assoc, ← hflat]
        have hkept : (quoted || !isSpace c) = true := by
          cases quoted <;> simp_all
        simp [hkept]

/-- What is left of an argument. -/
def kept (arg : List Char) : List Char := arg.filter fun c => needQuote arg || !isSpace c

/-- The splitter has read these arguments: if the text ended here, it would have what is left of
them, and the arguments as they are if nothing was dropped. -/
structure Read (base args : List (List Char)) (s : Scan) : Prop where
  inQuotes : s.inQuotes = false
  flat : s.flush.push.flatten = base.flatten ++ args.flatMap kept
  args : (∀ arg ∈ args, kept arg = arg) → s.flush.push = base ++ args

/-- Where the argument ends, it is what the splitter would give. -/
theorem Reads.read (h : Reads t n base (needQuote arg) arg) (hquotes : s.inQuotes = false)
    (hargs : s.args = t.args) (hword : s.current.flatten ++ replicate s.backslashes backslash =
      t.current.flatten ++ replicate n backslash) : Read base [arg] s := by
  have hflat : s.flush.push.flatten = base.flatten ++ kept arg := by
    rw [push_flush, hargs, hword, flatten_append, flatten_singleton, ← append_assoc, h.flat, kept]
  refine ⟨hquotes, by simpa using hflat, fun hkept => ?_⟩
  replace hkept := hkept arg (mem_singleton_self _)
  rw [push_flush, hargs, h.args (filter_eq_self.mp hkept)] at hflat ⊢
  rw [hkept, flatten_append, append_cancel_left_eq, flatten_singleton] at hflat
  rw [hflat]

/-- A quoted argument is read, in quotes or not. -/
theorem quoteArg_read (base : List (List Char)) (arg : List Char) :
    Read base [arg] ((quoteArg arg).foldl Scan.char { args := base }) := by
  simp only [quoteArg]
  generalize hp : arg.foldl quoteChar ([], 0) = p
  split_ifs with hquote
  · have hne : quote ≠ backslash := by decide
    have hstart : Scan.char { args := base } quote =
        { args := base, current := [[]], inQuotes := true, started := true } := by
      simp [Scan.char, hne]
    have h : Reads (Scan.char { args := base } quote) 0 base (needQuote arg) [] := by
      rw [hstart, hquote]
      exact ⟨rfl, rfl, by simp, fun _ => rfl⟩
    replace h := hp ▸ h.fold arg
    rw [foldl_cons, foldl_append, foldl_append, foldl_append]
    generalize p.1.foldl Scan.char _ = t at h ⊢
    -- twice the backslashes, of which the closing quote leaves half
    have hhalf : (p.2 + p.2) / 2 = p.2 := by omega
    have heven : (p.2 + p.2) % 2 = 0 := by omega
    refine h.read ?_ ?_ ?_ <;>
      simp [foldl_backslashes, h.backslashes, h.inQuotes, Scan.char, hne, hhalf, heven, hquote]
  · have h : Reads { args := base } 0 base (needQuote arg) [] :=
      ⟨rfl, (Bool.eq_false_of_not_eq_true hquote).symm, by simp, fun _ => rfl⟩
    replace h := hp ▸ h.fold arg
    refine h.read ?_ ?_ ?_ <;>
      simp [foldl_backslashes, h.backslashes, h.inQuotes, hquote]

/-! ## All arguments -/

/-- A blank outside quotes ends an argument. -/
theorem char_blank (h : s.inQuotes = false) : s.char ' ' = { args := s.flush.push } := by
  have hback : ' ' ≠ backslash := by decide
  have hquote : ' ' ≠ quote := by decide
  have hspace : isSpace ' ' = true := by decide
  simp [Scan.char, Scan.flush, hback, hquote, hspace, h]

theorem quoteArg_ne_nil (arg : List Char) : quoteArg arg ≠ [] := by
  induction arg using reverseRecOn with
  | nil => decide
  | append_singleton arg c =>
    simp only [quoteArg, foldl_append, foldl_cons, foldl_nil, quoteChar]
    split_ifs <;> simp

/-- The whole line is read, argument by argument. -/
theorem list2cmdline_read (hne : args ≠ []) :
    list2cmdline args ≠ [] ∧ Read [] args ((list2cmdline args).foldl Scan.char {}) := by
  induction args using reverseRecOn with
  | nil => exact absurd rfl hne
  | append_singleton args arg ih =>
    rw [list2cmdline, foldl_append, foldl_cons, foldl_nil, ← list2cmdline]
    refine ⟨by simp [quoteArg_ne_nil], ?_⟩
    rcases eq_or_ne args [] with rfl | hargs
    · exact quoteArg_read [] arg
    · obtain ⟨htext, hread⟩ := ih hargs
      simp only [isEmpty_eq_false_iff.mpr htext, Bool.false_eq_true, if_false, foldl_append,
        foldl_cons, foldl_nil, char_blank hread.inQuotes]
      have hlast := quoteArg_read ((list2cmdline args).foldl Scan.char {}).flush.push arg
      refine ⟨hlast.inQuotes, by simp [hlast.flat, hread.flat], fun hkept => ?_⟩
      obtain ⟨hkept, hkept'⟩ := forall_mem_append.mp hkept
      rw [hlast.args hkept', hread.args hkept, nil_append, nil_append]

/-- The last line drops the empty arguments, and gives one only by itself. -/
theorem windowsArgvSplit_spec (text : List Char) :
    (windowsArgvSplit text).flatten = (text.foldl Scan.char {}).flush.push.flatten ∧
      ([] ∈ windowsArgvSplit text → windowsArgvSplit text = [[]]) := by
  have hflat := flatten_filter_ne_nil (L := (text.foldl Scan.char {}).flush.push)
  unfold windowsArgvSplit
  dsimp only
  split
  next heq =>
    rw [← hflat, heq]
    split <;> simp
  next => exact ⟨hflat, by simp⟩

/-- Dropped whitespace is missing from the text of the arguments. -/
theorem kept_eq_self (h : args.flatMap kept = args.flatten) : ∀ arg ∈ args, kept arg = arg := by
  by_contra! hex
  obtain ⟨arg, harg, hne⟩ := hex
  have hsub (arg : List Char) : (kept arg).Sublist arg := filter_sublist
  have hlt : (args.map fun arg => (kept arg).length).sum < (args.map length).sum :=
    sum_lt_sum _ _ (fun arg _ => (hsub arg).length_le)
      ⟨arg, harg, (hsub arg).length_le.lt_of_ne fun heq => hne ((hsub arg).eq_of_length heq)⟩
  rw [← length_flatten, ← h, length_flatMap] at hlt
  exact lt_irrefl _ hlt

/-- Nothing of an argument is dropped unless it has whitespace that is not quoted. -/
theorem kept_eq_self_iff (arg : List Char) :
    kept arg = arg ↔ ((∃ c ∈ arg, isSpace c) → ' ' ∈ arg ∨ '\t' ∈ arg) := by
  rw [kept, filter_eq_self]
  rcases eq_or_ne arg [] with rfl | hne
  · simp
  · by_cases hblank : ' ' ∈ arg ∨ '\t' ∈ arg
    · have hquote : needQuote arg = true := by simpa [needQuote, hne] using hblank
      simp [hquote, hblank]
    · have hquote : needQuote arg = false := by simpa [needQuote, hne] using hblank
      simp [hquote, hblank]

/-- The arguments are read back exactly when none is empty, unless it is the only one, and any with
whitespace has a blank or a tab. -/
theorem split_list2cmdline_iff (args : List (List Char)) :
    windowsArgvSplit (list2cmdline args) = args ↔
      (([] : List Char) ∈ args → args = [[]]) ∧
        ∀ arg ∈ args, (∃ c ∈ arg, isSpace c) → ' ' ∈ arg ∨ '\t' ∈ arg := by
  simp only [← kept_eq_self_iff]
  rcases eq_or_ne args [] with rfl | hne
  · simpa using (by decide +kernel : windowsArgvSplit (list2cmdline []) = [])
  obtain ⟨-, hread⟩ := list2cmdline_read hne
  constructor
  · intro h
    obtain ⟨hflat, hempty⟩ := windowsArgvSplit_spec (list2cmdline args)
    rw [h] at hflat hempty
    exact ⟨hempty, kept_eq_self (hflat.trans hread.flat).symm⟩
  · rintro ⟨hempty, hkept⟩
    by_cases hnil : [] ∈ args
    · rw [hempty hnil]
      decide +kernel
    have hfull : args.filter (· ≠ []) = args := by
      refine filter_eq_self.mpr fun arg harg => ?_
      simpa using ne_of_mem_of_not_mem harg hnil
    rw [windowsArgvSplit, hread.args hkept, nil_append, hfull]
    split
    · exact absurd rfl hne
    · rfl

/-- An empty argument is dropped. The quoting leaves a line feed as it is, and the splitter splits
there. -/
theorem arguments_lost :
    windowsArgvSplit (list2cmdline [['a'], []]) = [['a']] ∧
      windowsArgvSplit (list2cmdline [['a', '\n', 'b']]) = [['a'], ['b']] := by
  decide +kernel

end Cronstable.TaskXml
