import Cronstable.Lib.PyStr
import Mathlib.Data.List.TakeWhile

/-!
# Environment variables in configuration values

`_interpolate_env_value` expands `${NAME}`, `${NAME:-DEFAULT}` and `$$` in one pass from left to
right. `Cut` is the grammar that it documents, without a scanner: a text is cut into pieces, and a
`$` stands for itself only where no form matches. The scanner has a flag that the grammar has not:
once a default has no closing brace, it stops looking for braced forms. That loses none, since no
closing brace is left (`next_of_no_form`).
-/

namespace Cronstable.Config

open List

def dollar : CodePoint := 36

def lbrace : CodePoint := 123

def rbrace : CodePoint := 125

def colon : CodePoint := 58

def dash : CodePoint := 45

/-! ## The scanner -/

/-- `[A-Za-z_]`. -/
def isNameStart (c : CodePoint) : Bool :=
  (65 ≤ c.val && c.val ≤ 90) || (97 ≤ c.val && c.val ≤ 122) || c.val == 95

/-- `[A-Za-z0-9_]`. -/
def isNameChar (c : CodePoint) : Bool := isNameStart c || (48 ≤ c.val && c.val ≤ 57)

/-- `_ENV_NAME_RE.match`: the name that a text starts with, and what follows it. -/
def matchName (text : PyStr) : Option (PyStr × PyStr) :=
  if text.head?.any isNameStart then
    some (text.takeWhile isNameChar, text.dropWhile isNameChar)
  else none

/-- The environment, and what an error says of where a value is from. -/
structure Site where
  env : PyStr → Option PyStr
  path : PyStr
  location : PyStr

/-- The error of a reference to a variable that is not set. -/
def unsetError (site : Site) (name : PyStr) : PyStr :=
  let place :=
    if site.location = [] then .lit "the config" else .lit "config value " ++ site.location
  site.path ++ .lit ": " ++ place ++ .lit " references environment variable $\x7b" ++ name ++
    .lit "\x7d, which is not set; export it, or write $\x7b" ++ name ++
    .lit ":-default\x7d to supply a fallback"

variable (site : Site)

/-- `_resolve_env`, whose error is its message. -/
def resolveEnv (name : PyStr) (default : Option PyStr) : Except PyStr PyStr :=
  match default, site.env name with
  | some default, some value => .ok (if value = [] then default else value)
  | some default, none => .ok default
  | none, some value => .ok value
  | none, none => .error (unsetError site name)

/-- What the loop does at a `$`: what it appends, how far past the `$` it goes on, and whether it
still looks for braces. -/
structure Next where
  value : Except PyStr PyStr := .ok [dollar]
  skip : ℕ := 0
  bracesPossible : Bool := true

/-- At a `$` with a name in braces after it. -/
def nextName (name more : PyStr) : Next :=
  if more.take 2 = [colon, dash] then
    if rbrace ∈ more.drop 2 then
      let default := (more.drop 2).takeWhile (· ≠ rbrace)
      { value := resolveEnv site name (some default), skip := name.length + default.length + 4 }
    else { bracesPossible := false }
  else if more.head? = some rbrace then
    { value := resolveEnv site name none, skip := name.length + 2 }
  else {}

/-- At a `$`, from what follows it. -/
def next (bracesPossible : Bool) (after : PyStr) : Next :=
  if after.head? = some dollar then { skip := 1, bracesPossible }
  else if bracesPossible ∧ after.head? = some lbrace then
    match matchName after.tail with
    | some (name, more) => nextName site name more
    | none => {}
  else { bracesPossible }

/-- The loop of `_interpolate_env_value`, from a cursor on. -/
def scan (bracesPossible : Bool) (text : PyStr) : Except PyStr PyStr :=
  if _h : dollar ∈ text then do
    let after := (text.dropWhile (· ≠ dollar)).tail
    let step := next site bracesPossible after
    let value ← step.value
    let rest ← scan step.bracesPossible (after.drop step.skip)
    .ok (text.takeWhile (· ≠ dollar) ++ value ++ rest)
  else .ok text
termination_by text.length
decreasing_by
  have hdrop : (text.dropWhile (· ≠ dollar)).length ≤ text.length :=
    (dropWhile_suffix _).length_le
  have htext : 0 < text.length := length_pos_of_mem _h
  rw [length_drop, length_tail]
  omega

/-- `_interpolate_env_value`. -/
def interpolateEnvValue (raw : PyStr) : Except PyStr PyStr :=
  if dollar ∉ raw then .ok raw else scan site true raw

/-- The text of a value that `_scalar` quotes: `text.replace("$", "$$")`. -/
def scalarText (text : PyStr) : PyStr :=
  text.flatMap fun c => if c = dollar then [dollar, dollar] else [c]

/-! ## The grammar -/

/-- A piece of a text. -/
inductive Piece where
  /-- `$$`. -/
  | escaped
  /-- `${NAME}`, or `${NAME:-DEFAULT}`. -/
  | ref (name : PyStr) (default : Option PyStr)
  /-- A character that is copied. -/
  | char (c : CodePoint)

namespace Piece

/-- What follows the name of a reference. -/
def closing : Option PyStr → PyStr
  | none => [rbrace]
  | some default => colon :: dash :: default ++ [rbrace]

/-- The characters of a piece. -/
def text : Piece → PyStr
  | escaped => [dollar, dollar]
  | ref name default => dollar :: lbrace :: name ++ closing default
  | char c => [c]

/-- The forms that a `$` may begin. -/
def IsForm : Piece → Prop
  | escaped => True
  | ref name default => name.head?.any isNameStart = true ∧ (∀ c ∈ name, isNameChar c = true) ∧
      ∀ text ∈ default, rbrace ∉ text
  | char _ => False

/-- What a piece is replaced by: a default stands in for a variable that is unset or empty. -/
def value : Piece → Except PyStr PyStr
  | escaped => .ok [dollar]
  | ref name (some default) => .ok (((site.env name).filter (· ≠ [])).getD default)
  | ref name none => (site.env name).elim (.error (unsetError site name)) .ok
  | char c => .ok [c]

end Piece

/-- The pieces of a text, from left to right: at each place a form that matches, or else one
character. -/
inductive Cut : PyStr → List Piece → Prop where
  | nil : Cut [] []
  | form {p : Piece} {rest : PyStr} {ps : List Piece} (hp : p.IsForm) (h : Cut rest ps) :
      Cut (p.text ++ rest) (p :: ps)
  | char {c : CodePoint} {rest : PyStr} {ps : List Piece}
      (hno : ∀ p : Piece, p.IsForm → ¬ p.text <+: c :: rest) (h : Cut rest ps) :
      Cut (c :: rest) (.char c :: ps)

/-- The text of the replaced pieces, or the error of the first that has one. -/
def render : List Piece → Except PyStr PyStr
  | [] => .ok []
  | p :: ps => do
    let value ← p.value site
    let rest ← render ps
    .ok (value ++ rest)

/-- Every text has its pieces. -/
theorem exists_cut (raw : PyStr) : ∃ ps, Cut raw ps := by
  induction hn : raw.length using Nat.strongRecOn generalizing raw with
  | _ n ih =>
    by_cases hform : ∃ p : Piece, p.IsForm ∧ p.text <+: raw
    · obtain ⟨p, hp, rest, rfl⟩ := hform
      have hlt : rest.length < n := by
        rw [← hn, length_append]
        cases p <;> simp [Piece.text]
      obtain ⟨ps, hps⟩ := ih _ hlt rest rfl
      exact ⟨_, .form hp hps⟩
    · cases raw with
      | nil => exact ⟨[], .nil⟩
      | cons c rest =>
        obtain ⟨ps, hps⟩ := ih _ (by rw [← hn]; exact Nat.lt_succ_self _) rest rfl
        exact ⟨_, .char (fun p hp hpre => hform ⟨p, hp, hpre⟩) hps⟩

/-! ## The scanner reads the grammar -/

variable {site} {name more after rest raw : PyStr} {default : Option PyStr} {b : Bool} {p : Piece}
  {ps : List Piece}

lemma matchName_eq_some {text : PyStr} (h : matchName text = some (name, more)) :
    name.head?.any isNameStart = true ∧ (∀ c ∈ name, isNameChar c = true) ∧
      text = name ++ more := by
  obtain ⟨hstart, hname, hmore⟩ : text.head?.any isNameStart = true ∧
      text.takeWhile isNameChar = name ∧ text.dropWhile isNameChar = more := by
    simpa [matchName] using h
  subst hname hmore
  refine ⟨?_, fun c hc => mem_takeWhile_imp hc, takeWhile_append_dropWhile.symm⟩
  cases text with
  | nil => cases hstart
  | cons c text =>
    have hc : isNameStart c = true := by simpa using hstart
    simp [isNameChar, hc]

/-- A name ends where its reference is closed. -/
theorem matchName_closing (hstart : name.head?.any isNameStart = true)
    (hname : ∀ c ∈ name, isNameChar c = true) :
    matchName (name ++ Piece.closing default ++ rest) =
      some (name, Piece.closing default ++ rest) := by
  obtain ⟨c, tail, hclose, hc⟩ : ∃ c tail, Piece.closing default ++ rest = c :: tail ∧
      isNameChar c = false := by
    cases default with
    | none => exact ⟨rbrace, rest, rfl, by decide⟩
    | some default => exact ⟨colon, _, rfl, by decide⟩
  have hhead : (name ++ Piece.closing default ++ rest).head?.any isNameStart = true := by
    cases name with
    | nil => cases hstart
    | cons d name => exact hstart
  rw [matchName, if_pos hhead, append_assoc, hclose, takeWhile_append_of_pos hname,
    dropWhile_append_of_pos hname]
  simp [hc]

lemma next_name {tail : PyStr} (h : matchName tail = some (name, more)) :
    next site true (lbrace :: tail) = nextName site name more := by
  have hne : ¬ (lbrace :: tail).head? = some dollar := by simp [lbrace, dollar]
  rw [next, if_neg hne, if_pos ⟨rfl, rfl⟩, tail_cons, h]

lemma resolveEnv_eq_value :
    resolveEnv site name default = (Piece.ref name default).value site := by
  cases default with
  | none => cases henv : site.env name <;> simp [resolveEnv, Piece.value, henv]
  | some default =>
    cases henv : site.env name with
    | none => simp [resolveEnv, Piece.value, henv]
    | some v => by_cases hv : v = [] <;> simp [resolveEnv, Piece.value, henv, hv, Option.filter]

/-- Where a form matches, the scanner takes it. -/
theorem next_of_form (hp : p.IsForm) (h : dollar :: after = p.text ++ rest)
    (hb : b = false → rbrace ∉ after) :
    (next site b after).value = p.value site ∧ after.drop (next site b after).skip = rest ∧
      (next site b after).bracesPossible = b := by
  cases p with
  | escaped =>
    obtain rfl : after = dollar :: rest := (cons.inj h).2
    exact ⟨rfl, rfl, rfl⟩
  | ref name default =>
    obtain ⟨hstart, hname, hdefault⟩ := hp
    obtain rfl : after = lbrace :: (name ++ Piece.closing default ++ rest) := (cons.inj h).2
    have hclosed : rbrace ∈ Piece.closing default := by
      cases default <;> simp [Piece.closing]
    have htrue : b = true := by
      by_contra hfalse
      exact hb (by simpa using hfalse) (by simp [hclosed])
    rw [htrue, next_name (matchName_closing hstart hname), ← resolveEnv_eq_value]
    have hskip : (lbrace :: (name ++ Piece.closing default ++ rest)).drop
        (name.length + (Piece.closing default).length + 1) = rest := by
      exact drop_left' (by simp)
    cases default with
    | none =>
      have hcolon : rbrace ≠ colon := by decide
      have hnext : nextName site name (Piece.closing none ++ rest) =
          { value := resolveEnv site name none, skip := name.length + 2 } := by
        simp [nextName, Piece.closing, hcolon]
      exact ⟨rfl, hskip, rfl⟩
    | some default =>
      -- the default has no brace of its own, so the first one closes it
      have htake : (default ++ rbrace :: rest).takeWhile (· ≠ rbrace) = default := by
        have hfree : ∀ c ∈ default, decide (c ≠ rbrace) = true := by
          intro c hc
          simpa using ne_of_mem_of_not_mem hc (hdefault default rfl)
        rw [takeWhile_append_of_pos hfree]
        simp
      have hmore : Piece.closing (some default) ++ rest =
          colon :: dash :: (default ++ rbrace :: rest) := by simp [Piece.closing]
      have hnext : nextName site name (Piece.closing (some default) ++ rest) =
          { value := resolveEnv site name (some default)
            skip := name.length + default.length + 4 } := by
        rw [hmore, nextName, if_pos (by rfl), if_pos (by simp), drop_succ_cons, drop_succ_cons,
          drop_zero, htake]
      rw [hnext]
      refine ⟨rfl, ?_, rfl⟩
      have hlength : (Piece.closing (some default)).length = default.length + 3 := by
        simp [Piece.closing]
      rwa [hlength, ← Nat.add_assoc] at hskip
  | char c => exact hp.elim

/-- Where none matches, it copies the `$`, and gives up on braces only if none is left. -/
theorem next_of_no_form (hno : ∀ p : Piece, p.IsForm → ¬ p.text <+: dollar :: after)
    (hb : b = false → rbrace ∉ after) :
    ∃ b', next site b after = { bracesPossible := b' } ∧ (b' = false → rbrace ∉ after) := by
  have hdollar : ¬ after.head? = some dollar := by
    intro hhead
    obtain ⟨tail, rfl⟩ := head?_eq_some_iff.mp hhead
    exact hno .escaped trivial ⟨tail, rfl⟩
  by_cases hbrace : b = true ∧ after.head? = some lbrace
  · obtain ⟨rfl, hhead⟩ := hbrace
    obtain ⟨tail, rfl⟩ := head?_eq_some_iff.mp hhead
    cases hname : matchName tail with
    | none =>
      refine ⟨true, ?_, hb⟩
      rw [next, if_neg hdollar, if_pos ⟨rfl, rfl⟩, tail_cons, hname]
    | some found =>
      obtain ⟨name, more⟩ := found
      obtain ⟨hstart, hchars, rfl⟩ := matchName_eq_some hname
      rw [next_name hname, nextName]
      split_ifs with htake hclose hvar
      · -- the default would end at the first brace
        obtain ⟨default, rest, hdrop, hfree⟩ := eq_append_cons_of_mem hclose
        have hform : (Piece.ref name (some default)).IsForm := by
          refine ⟨hstart, hchars, ?_⟩
          rintro _ ⟨⟩
          exact hfree
        refine absurd ⟨rest, ?_⟩ (hno _ hform)
        rw [← take_append_drop 2 more, htake, hdrop]
        simp [Piece.text, Piece.closing]
      · refine ⟨false, rfl, fun _ => ?_⟩
        have hfree : rbrace ∉ name := fun hmem => absurd (hchars _ hmem) (by decide)
        have hgrammar : rbrace ∉ [lbrace] ∧ rbrace ∉ [colon, dash] := by decide
        rw [← take_append_drop 2 more, htake, ← singleton_append]
        simp only [mem_append, not_or]
        exact ⟨hgrammar.1, hfree, hgrammar.2, hclose⟩
      · obtain ⟨rest, rfl⟩ := head?_eq_some_iff.mp hvar
        exact absurd ⟨rest, by simp [Piece.text, Piece.closing]⟩
          (hno (.ref name none) ⟨hstart, hchars, nofun⟩)
      · exact ⟨true, rfl, hb⟩
  · exact ⟨b, by rw [next, if_neg hdollar, if_neg hbrace], hb⟩

lemma Piece.IsForm.exists_text (hp : p.IsForm) : ∃ after, p.text = dollar :: after := by
  cases p with
  | escaped => exact ⟨_, rfl⟩
  | ref name default => exact ⟨_, rfl⟩
  | char c => exact hp.elim

/-! ## A whole text -/

lemma scan_dollar (b : Bool) (after : PyStr) :
    scan site b (dollar :: after) =
      (do
        let value ← (next site b after).value
        let rest ← scan site (next site b after).bracesPossible
          (after.drop (next site b after).skip)
        .ok (value ++ rest)) := by
  rw [scan]
  simp

lemma scan_cons {c : CodePoint} (hc : c ≠ dollar) (b : Bool) (text : PyStr) :
    scan site b (c :: text) = (do
      let rest ← scan site b text
      .ok ([c] ++ rest)) := by
  by_cases hmem : dollar ∈ text
  · rw [scan, dif_pos (mem_cons_of_mem c hmem)]
    conv_rhs => rw [scan, dif_pos hmem]
    simp [hc]
    rfl
  · have hcons : dollar ∉ c :: text := by simp [hc.symm, hmem]
    rw [scan, scan, dif_neg hcons, dif_neg hmem]
    rfl

/-- The scanner renders the pieces, whether or not it still looks for braces. -/
theorem scan_eq_render (h : Cut raw ps) (hb : b = false → rbrace ∉ raw) :
    scan site b raw = render site ps := by
  induction h generalizing b with
  | nil => simp [scan, render]
  | @form p rest ps hp _ ih =>
    obtain ⟨after, hafter⟩ := hp.exists_text
    have htext : dollar :: (after ++ rest) = p.text ++ rest := by rw [hafter, cons_append]
    obtain ⟨hvalue, hskip, hflag⟩ := @next_of_form site _ _ _ _ hp htext fun hfalse hmem =>
      hb hfalse (htext ▸ mem_cons_of_mem _ hmem)
    rw [← htext, scan_dollar, hvalue, hskip, hflag, render,
      ih fun hfalse hmem => hb hfalse (mem_append_right _ hmem)]
  | @char c rest ps hno _ ih =>
    have hrest : b = false → rbrace ∉ rest := fun hfalse hmem =>
      hb hfalse (mem_cons_of_mem _ hmem)
    by_cases hc : c = dollar
    · subst hc
      obtain ⟨b', hnext, hb'⟩ := next_of_no_form hno hrest
      rw [scan_dollar, hnext, drop_zero, ih hb']
      rfl
    · rw [scan_cons hc, ih hrest]
      rfl

lemma interpolateEnvValue_eq (h : Cut raw ps) :
    interpolateEnvValue site raw = render site ps := by
  rw [← scan_eq_render h (b := true) nofun, interpolateEnvValue]
  split_ifs with hdollar
  · rfl
  · rw [scan, dif_neg hdollar]

/-- Rendering fails at a variable that has no default and is unset, and nowhere else. -/
theorem render_error_iff (ps : List Piece) :
    (∃ message, render site ps = .error message) ↔
      ∃ name, .ref name none ∈ ps ∧ site.env name = none := by
  induction ps with
  | nil => simp [render]
  | cons p ps ih =>
    have hvalue : (∃ message, p.value site = .error message) ↔
        ∃ name, p = .ref name none ∧ site.env name = none := by
      rcases p with _ | ⟨name, _ | default⟩ | c
      case ref.none => cases henv : site.env name <;> simp [Piece.value, henv]
      all_goals simp [Piece.value]
    have hcons : (∃ message, render site (p :: ps) = .error message) ↔
        (∃ message, p.value site = .error message) ∨
          ∃ message, render site ps = .error message := by
      rw [render]
      cases p.value site <;> cases render site ps <;> simp [bind, Except.bind]
    rw [hcons, hvalue, ih, ← exists_or]
    simp only [mem_cons, or_and_right, eq_comm]

/-- A text whose every `$` was doubled is cut into its characters. -/
theorem cut_scalarText (t : PyStr) :
    ∃ ps, Cut (scalarText t) ps ∧ render site ps = .ok t := by
  induction t with
  | nil => exact ⟨[], .nil, rfl⟩
  | cons c t ih =>
    obtain ⟨ps, hcut, hrender⟩ := ih
    by_cases hc : c = dollar
    · refine ⟨.escaped :: ps, ?_, by rw [render, hrender, hc]; rfl⟩
      rw [scalarText, flatMap_cons, if_pos hc]
      exact .form (p := .escaped) trivial hcut
    · refine ⟨.char c :: ps, ?_, by rw [render, hrender]; rfl⟩
      rw [scalarText, flatMap_cons, if_neg hc]
      refine .char (fun p hp hpre => ?_) hcut
      -- a form begins with a `$`
      obtain ⟨after, hafter⟩ := hp.exists_text
      rw [hafter, cons_prefix_cons] at hpre
      exact hc hpre.1.symm

/-- Interpolation replaces the pieces that the grammar cuts a text into, and raises exactly if one
of them is `${NAME}` for a variable that is not set. A value whose every `$` was doubled comes back
as it was. -/
theorem interpolation_grammar (site : Site) :
    (∀ raw, ∃ ps, Cut raw ps) ∧
    (∀ raw ps, Cut raw ps → interpolateEnvValue site raw = render site ps ∧
      ((∃ message, interpolateEnvValue site raw = .error message) ↔
        ∃ name, .ref name none ∈ ps ∧ site.env name = none)) ∧
    ∀ t, interpolateEnvValue site (scalarText t) = .ok t := by
  refine ⟨exists_cut, fun raw ps hcut => ?_, fun t => ?_⟩
  · rw [interpolateEnvValue_eq hcut]
    exact ⟨rfl, render_error_iff ps⟩
  · obtain ⟨ps, hcut, hrender⟩ := cut_scalarText t
    rw [interpolateEnvValue_eq hcut, hrender]

/-- The text `$$${X}` where `X` is set. -/
theorem interpolation_grammar_reference :
    Cut [dollar, dollar, dollar, lbrace, 88, rbrace] [.escaped, .ref [88] none] ∧
      interpolateEnvValue ⟨fun _ => some [118], [], []⟩
        [dollar, dollar, dollar, lbrace, 88, rbrace] = .ok [dollar, 118] := by
  have hcut : Cut [dollar, dollar, dollar, lbrace, 88, rbrace] [.escaped, .ref [88] none] :=
    .form (p := .escaped) trivial
      (.form (p := .ref [88] none) ⟨rfl, forall_mem_singleton.mpr rfl, nofun⟩ .nil)
  exact ⟨hcut, ((interpolation_grammar ⟨fun _ => some [118], [], []⟩).2.1 _ _ hcut).1⟩

end Cronstable.Config
