import Cronstable.Fingerprint.Memo

/-!
# The job-set id reveals no secret values

Two jobs that differ only in secrets have the same canonical form. `DifferOnlyInSecrets` says where
they may differ: in the values of environment variables and of job secrets, and, in a report, in an
inline secret that is set on both sides and in the values of webhook headers. It says nothing of
addresses, so the jobs of one list may share their blocks in other ways than those of the other.

A redaction makes the two reports alike, one reporter at a time (`Items.Like`), and from there on
nothing can tell them apart: not the form, nor its bytes, nor the digests. A digest that was taken
with a memo is the one without (`digests_eq_map`), so the order of the jobs does not matter, nor
which of their blocks are shared (`splice_eq_plain`).
-/

namespace Cronstable.Fingerprint

open CanonicalJson Items List Function

/-! ## Where two jobs may differ -/

/-- The values are alike, or dictionaries that are alike but for values that `R` relates. -/
def Within (R : String → PyValue → PyValue → Prop) (v w : PyValue) : Prop :=
  v.Alike w ∨ ∃ a items b items', v = .dict a items ∧ w = .dict b items' ∧ Agree R items items'

/-- Alike at every key but `k`. -/
def only (k : String) (R : PyValue → PyValue → Prop) : String → PyValue → PyValue → Prop :=
  Function.update (fun _ => PyValue.Alike) k R

/-- A secret that is set on both sides may differ. -/
def SecretValue (v w : PyValue) : Prop := v.Alike w ∨ v.isNull = false ∧ w.isNull = false

/-- A `dsn`, `password` or `url`: its `value` may differ. -/
def SecretSource : PyValue → PyValue → Prop := Within (only "value" SecretValue)

/-- The headers may differ in their values. -/
def Headers (v w : PyValue) : Prop :=
  v.Alike w ∨ ∃ a items b items', v = .dict a items ∧ w = .dict b items' ∧
    Items.keys items = Items.keys items'

/-- The webhooks may differ in their `url` and `headers`. -/
def Webhook : PyValue → PyValue → Prop :=
  Within (Function.update (only "url" SecretSource) "headers" Headers)

/-- What may differ in each reporter of a report. -/
def reporters : String → PyValue → PyValue → Prop :=
  Function.update
    (Function.update (only "sentry" (Within (only "dsn" SecretSource)))
      "mail" (Within (only "password" SecretSource)))
    "webhook" Webhook

/-- The reports may differ in the secrets of their reporters. -/
def Report : PyValue → PyValue → Prop := Within reporters

/-- The hook blocks may differ in their reports. -/
def Hook (b b' : Block) : Prop := Within (only "report" Report) b.value b'.value

/-- The jobs may differ in environment values, secret values and report secrets. -/
structure DifferOnlyInSecrets (j j' : JobConfig) : Prop where
  rest : j' = { j with
    environment := j'.environment, secrets := j'.secrets, failsWhen := j'.failsWhen
    statsd := j'.statsd, verify := j'.verify, onFailure := j'.onFailure
    onPermanentFailure := j'.onPermanentFailure, onSuccess := j'.onSuccess }
  environment : j.environment.map EnvVar.key = j'.environment.map EnvVar.key
  secrets : List.Forall₂ (fun x y => y = { x with value := y.value }) j.secrets j'.secrets
  failsWhen : j.failsWhen.value.Alike j'.failsWhen.value
  statsd : j.statsd.map (fun b => b.value.strip) = j'.statsd.map fun b => b.value.strip
  verify : j.verify.map (fun b => b.value.strip) = j'.verify.map fun b => b.value.strip
  onFailure : Hook j.onFailure j'.onFailure
  onPermanentFailure : Hook j.onPermanentFailure j'.onPermanentFailure
  onSuccess : Hook j.onSuccess j'.onSuccess

/-! ## Redaction -/

variable {i i' items items' : Items} {R : String → PyValue → PyValue → Prop} {v w : PyValue}
  {k : String}

section Redaction

variable {A A' : Allocator}

/-- `isinstance(v, dict)`. -/
private def isDict : PyValue → Bool
  | .dict _ _ => true
  | _ => false

/-- Values that are related are both dictionaries, or are alike. -/
private lemma Within.cases (h : Within R v w) :
    (∃ a items b items', v = .dict a items ∧ w = .dict b items' ∧ Like R items items') ∨
      v.Alike w ∧ isDict v = false ∧ isDict w = false := by
  rcases h with h | ⟨a, items, b, items', rfl, rfl, hagree⟩
  · cases hv : isDict v with
    | true =>
      obtain ⟨a, items, rfl⟩ : ∃ a items, v = .dict a items := by
        cases v with
        | dict a items => exact ⟨a, items, rfl⟩
        | _ => cases hv
      obtain ⟨b, items', rfl, hstrip⟩ := h.exists_dict
      exact .inl ⟨a, items, b, items', rfl, rfl, .inl hstrip⟩
    | false =>
      refine .inr ⟨h, rfl, ?_⟩
      cases w with
      | dict b items' =>
        obtain ⟨a, items, rfl, -⟩ := PyValue.Alike.exists_dict (w := v) h.symm
        cases hv
      | _ => rfl
  · exact .inl ⟨a, items, b, items', rfl, rfl, .inr hagree⟩

/-- The two values that a redaction leaves or puts in place of `v` and `w`. -/
def Settles (v w : PyValue) : Option PyValue → Option PyValue → Prop
  | none, none => v.Alike w
  | some x, some y => x.Alike y
  | _, _ => False

/-- A key that was settled needs no relation. -/
theorem like_replace (h : Like R items items') {x y : Option PyValue}
    (hxy : Settles (items.get k) (items'.get k) x y) :
    Like (update R k PyValue.Alike) (replace items k x) (replace items' k y) := by
  cases x <;> cases y
  · exact h.refine hxy
  · exact hxy.elim
  · exact hxy.elim
  · exact h.set hxy

/-- With one key to relate, nothing is left when that one is settled. -/
private lemma strip_eq_of_only {R : PyValue → PyValue → Prop}
    (h : Like (update (only k R) k PyValue.Alike) items items') :
    items.strip = items'.strip := by
  refine h.strip_eq fun j v w hvw => ?_
  simp only [only, update_apply] at hvw
  split_ifs at hvw <;> exact hvw

private lemma like_get_only {R : PyValue → PyValue → Prop} (h : Like (only k R) items items')
    (hR : ∀ v w : PyValue, v.Alike w → R v w) : R (items.get k) (items'.get k) := by
  have hself : only k R k = R := update_self _ _ _
  have := h.get k (by rwa [hself])
  rwa [hself] at this

/-- Related sources hold a secret together, and are alike when it is replaced. -/
theorem inlineSecret_spec (h : SecretSource v w) :
    (inlineSecret v = none ∧ inlineSecret w = none ∧ v.Alike w) ∨
      ∃ i i', inlineSecret v = some i ∧ inlineSecret w = some i' ∧
        (i.set "value" secretPlaceholder).strip = (i'.set "value" secretPlaceholder).strip := by
  rcases h.cases with ⟨a, i, b, i', rfl, rfl, hlike⟩ | ⟨halike, hv, hw⟩
  · have hvalue : SecretValue (Items.get i "value") (Items.get i' "value") :=
      like_get_only hlike fun _ _ => .inl
    have hnull : (Items.get i "value").isNull = (Items.get i' "value").isNull := by
      rcases hvalue with hvalue | ⟨hleft, hright⟩
      · exact hvalue.isNull
      · rw [hleft, hright]
    simp only [inlineSecret, ← hnull]
    cases hset : (Items.get i "value").isNull with
    | true =>
      -- null on both sides: what is left is alike
      have halike : (Items.get i "value").Alike (Items.get i' "value") := by
        refine hvalue.resolve_right fun hneither => ?_
        rw [hset] at hneither
        cases hneither.1
      exact .inl ⟨rfl, rfl, alike_dict_iff.mpr (strip_eq_of_only (hlike.refine halike))⟩
    | false => exact .inr ⟨i, i', rfl, rfl, strip_eq_of_only (hlike.set (.refl _))⟩
  · refine .inl ⟨?_, ?_, halike⟩
    · cases v <;> first | rfl | cases hv
    · cases w <;> first | rfl | cases hw

/-- A reporter's block with one secret is settled. -/
theorem redactHolder_settles {key : String} (h : Within (only key SecretSource) v w) (s s' : Mem) :
    Settles v w (redactHolder A key v s).1 (redactHolder A' key w s').1 := by
  rcases h.cases with ⟨a, i, b, i', rfl, rfl, hlike⟩ | ⟨halike, hv, hw⟩
  · have hsource : SecretSource (Items.get i key) (Items.get i' key) :=
      like_get_only hlike fun _ _ => .inl
    unfold redactHolder
    rcases inlineSecret_spec hsource with ⟨hleft, hright, halike⟩ | ⟨x, x', hleft, hright, hstrip⟩
    · simp only [hleft, hright]
      exact alike_dict_iff.mpr (strip_eq_of_only (hlike.refine halike))
    · simp only [hleft, hright]
      exact alike_dict_iff.mpr (strip_eq_of_only (hlike.set (alike_dict_iff.mpr hstrip)))
  · have hleft : (redactHolder A key v s).1 = none := by cases v <;> first | rfl | cases hv
    have hright : (redactHolder A' key w s').1 = none := by cases w <;> first | rfl | cases hw
    rwa [hleft, hright]

/-- The `url` of related webhooks is settled: the copies, or the webhooks themselves, agree. -/
private lemma redactUrl_spec (A A' : Allocator) (h : Like R i i')
    (hurl : SecretSource (i.get "url") (i'.get "url")) (s s' : Mem) :
    (redactUrl A i s).1.isSome = (redactUrl A' i' s').1.isSome ∧
      Like (update R "url" PyValue.Alike) ((redactUrl A i s).1.getD i)
        ((redactUrl A' i' s').1.getD i') ∧
      ((redactUrl A i s).1.getD i).get "headers" = i.get "headers" ∧
      ((redactUrl A' i' s').1.getD i').get "headers" = i'.get "headers" := by
  unfold redactUrl
  rcases inlineSecret_spec hurl with ⟨hleft, hright, halike⟩ | ⟨x, x', hleft, hright, hstrip⟩
  · simp only [hleft, hright]
    exact ⟨trivial, h.refine halike, rfl, rfl⟩
  · simp only [hleft, hright]
    refine ⟨rfl, h.set (alike_dict_iff.mpr hstrip), ?_, ?_⟩ <;>
      exact get_set_of_ne (by decide) _ _

/-- The placeholders for headers with the same names. -/
private lemma strip_placeholders (h : i.keys = i'.keys) :
    Items.strip (i.map fun p => (p.1, secretPlaceholder)) =
      Items.strip (i'.map fun p => (p.1, secretPlaceholder)) := by
  have hkeys : ∀ l : Items, Items.strip (l.map fun p => (p.1, secretPlaceholder)) =
      l.keys.map fun k => (k, secretPlaceholder) := by
    intro l
    rw [Items.strip, Items.keys, map_map, map_map]
    rfl
  rw [hkeys, hkeys, h]

private lemma keys_eq_of_strip (h : i.strip = i'.strip) : i.keys = i'.keys := by
  have hkeys : ∀ l : Items, l.strip.keys = l.keys := by
    intro l
    rw [Items.strip, Items.keys, map_map]
    rfl
  rw [← hkeys, h, hkeys]

/-- Related headers are both dictionaries, with the same names, or are alike. -/
private lemma Headers.cases (h : Headers v w) :
    (∃ a i b i', v = .dict a i ∧ w = .dict b i' ∧ Items.keys i = Items.keys i') ∨
      v.Alike w ∧ isDict v = false ∧ isDict w = false := by
  rcases h with h | ⟨a, i, b, i', rfl, rfl, hkeys⟩
  · have hwithin : Within (fun _ => PyValue.Alike) v w := .inl h
    rcases hwithin.cases with ⟨a, i, b, i', rfl, rfl, -⟩ | hnot
    · exact .inl ⟨a, i, b, i', rfl, rfl, keys_eq_of_strip (alike_dict_iff.mp h)⟩
    · exact .inr hnot
  · exact .inl ⟨a, i, b, i', rfl, rfl, hkeys⟩

private lemma redactHeaders_eq {B : Allocator} {new : Option Items} {t : Mem}
    (h : isDict (i.get "headers") = false) : redactHeaders B i new t = (new, t) := by
  unfold redactHeaders
  split
  · rename_i heq
    rw [heq] at h
    cases h
  · rfl

/-- A webhook block is settled. -/
theorem redactWebhook_settles (h : Webhook v w) (s s' : Mem) :
    Settles v w (redactWebhook A v s).1 (redactWebhook A' w s').1 := by
  rcases h.cases with ⟨a, i, b, i', rfl, rfl, hlike⟩ | ⟨halike, hv, hw⟩
  · have hheaders : Headers (Items.get i "headers") (Items.get i' "headers") := by
      have := hlike.get "headers" (by simpa using fun _ _ => .inl)
      rwa [update_self] at this
    have hsource : SecretSource (Items.get i "url") (Items.get i' "url") := by
      have hself : update (only "url" SecretSource) "headers" Headers "url" =
          SecretSource := by
        rw [update_of_ne (by decide), only, update_self]
      have := hlike.get "url" (by rw [hself]; exact fun _ _ => .inl)
      rwa [hself] at this
    obtain ⟨hsome, hurl, hget, hget'⟩ := redactUrl_spec A A' hlike hsource s s'
    -- with both keys settled nothing is left
    have hdone : ∀ {x x' : Items},
        Like (update (update (update (only "url" SecretSource)
          "headers" Headers) "url" PyValue.Alike) "headers" PyValue.Alike) x x' →
        x.strip = x'.strip := by
      intro x x' hx
      refine hx.strip_eq fun k y z hyz => ?_
      simp only [only, update_apply] at hyz
      split_ifs at hyz <;> exact hyz
    unfold redactWebhook
    rcases hheaders.cases with ⟨c, j, d, j', hj, hj', hkeys⟩ | ⟨halike, hnot, hnot'⟩
    · simp only [redactHeaders, hj, hj']
      exact alike_dict_iff.mpr (hdone (hurl.set (alike_dict_iff.mpr (strip_placeholders hkeys))))
    · simp only [redactHeaders_eq hnot, redactHeaders_eq hnot']
      have hstrip := hdone (hurl.refine (by rwa [hget, hget']))
      cases hleft : (redactUrl A i s).1 <;> cases hright : (redactUrl A' i' s').1 <;>
        rw [hleft, hright] at hsome hstrip
      · exact alike_dict_iff.mpr hstrip
      · cases hsome
      · cases hsome
      · exact alike_dict_iff.mpr hstrip
  · have hleft : (redactWebhook A v s).1 = none := by cases v <;> first | rfl | cases hv
    have hright : (redactWebhook A' w s').1 = none := by cases w <;> first | rfl | cases hw
    rwa [hleft, hright]

/-- A reporter with one secret is settled in its report. -/
private lemma like_redactHolder (A A' : Allocator) (name key : String) (h : Like R i i')
    (hR : R name = Within (only key SecretSource)) (s s' : Mem) :
    Like (update R name PyValue.Alike)
      (replace i name (redactHolder A key (i.get name) s).1)
      (replace i' name (redactHolder A' key (i'.get name) s').1) := by
  have hget := h.get name (by rw [hR]; exact fun _ _ => .inl)
  rw [hR] at hget
  exact like_replace h (redactHolder_settles hget s s')

/-- The webhook is settled in its report. -/
private lemma like_redactWebhook (A A' : Allocator) (h : Like R i i') (hR : R "webhook" = Webhook)
    (s s' : Mem) :
    Like (update R "webhook" PyValue.Alike)
      (replace i "webhook" (redactWebhook A (i.get "webhook") s).1)
      (replace i' "webhook" (redactWebhook A' (i'.get "webhook") s').1) := by
  have hget := h.get "webhook" (by rw [hR]; exact fun _ _ => .inl)
  rw [hR] at hget
  exact like_replace h (redactWebhook_settles hget s s')

/-- Related reports are redacted alike. -/
theorem redactReport_strip (h : Like reporters i i') (s s' : Mem) :
    (redactReport A i s).1.items.strip = (redactReport A' i' s').1.items.strip := by
  have hsentry := like_redactHolder A A' "sentry" "dsn" h (by simp [reporters, only])
  have hmail := fun t t' =>
    like_redactHolder A A' "mail" "password" (hsentry t t') (by simp [reporters, only])
  have hwebhook := fun t t' u u' =>
    like_redactWebhook A A' (hmail t t' u u') (by simp [reporters])
  refine (hwebhook (alloc A s).2 (alloc A' s').2 _ _ _ _).strip_eq fun k v w hvw => ?_
  simp only [reporters, only, update_apply] at hvw
  split_ifs at hvw <;> exact hvw

/-- What is alike stays so when the defaults are left out. -/
theorem omitDefaultReportFields_strip {b b' : Block} (h : b.items.strip = b'.items.strip)
    (s s' : Mem) :
    (omitDefaultReportFields A b s).1.items.strip =
      (omitDefaultReportFields A' b' s').1.items.strip := by
  have hpop : ∀ (name : String) (default : PyValue) {i i' : Items}, i.strip = i'.strip →
      (popDefault name default i).strip = (popDefault name default i').strip := by
    intro name default i i' hstrip
    unfold popDefault
    rw [(get_alike hstrip name).pyEq]
    split
    · rw [strip_erase, strip_erase, hstrip]
    · exact hstrip
  have hshell : Settles (b.items.get "shell") (b'.items.get "shell")
      (omitTimeout A (b.items.get "shell") s).1 (omitTimeout A' (b'.items.get "shell") s').1 := by
    have halike := get_alike h "shell"
    have hwithin : Within (fun _ => PyValue.Alike) (b.items.get "shell") (b'.items.get "shell") :=
      .inl halike
    rcases hwithin.cases with ⟨c, i, d, i', hi, hi', hlike⟩ | ⟨-, hnot, hnot'⟩
    · have hstrip : Items.strip i = Items.strip i' := hlike.strip_eq fun _ _ _ => id
      rw [hi, hi'] at halike ⊢
      unfold omitTimeout
      simp only [(get_alike hstrip "timeout").pyEq]
      split
      · refine alike_dict_iff.mpr ?_
        rw [strip_erase, strip_erase, hstrip]
      · exact halike
    · have hnone : ∀ (B : Allocator) (x : PyValue) (t : Mem), isDict x = false →
          (omitTimeout B x t).1 = none := by
        intro B x t hx
        cases x <;> first | rfl | cases hx
      rw [hnone A _ s hnot, hnone A' _ s' hnot']
      exact halike
  have hlike : Like (fun _ => PyValue.Alike) b.items b'.items := .inl h
  have hitems := (like_replace hlike hshell).strip_eq fun k v w hvw => by
    rw [update_apply] at hvw
    split_ifs at hvw <;> exact hvw
  exact hpop _ _ (hpop _ _ hitems)

/-- Related hook blocks have copies that are alike. -/
theorem redactBlock_alike {b b' : Block} (h : Hook b b') (s s' : Mem) :
    (redactBlock A b s).1.value.Alike (redactBlock A' b' s').1.value := by
  have hlike : Like (only "report" Report) b.items b'.items := by
    rcases Within.cases h with ⟨c, i, d, i', hi, hi', hlike⟩ | ⟨-, hnot, -⟩
    · cases hi
      cases hi'
      exact hlike
    · cases hnot
  have hreport : Report (b.items.get "report") (b'.items.get "report") :=
    like_get_only hlike fun _ _ => .inl
  unfold redactBlock
  rcases hreport.cases with ⟨c, i, d, i', hi, hi', hreports⟩ | ⟨halike, hnot, hnot'⟩
  · simp only [hi, hi']
    refine alike_dict_iff.mpr (strip_eq_of_only (hlike.set (alike_dict_iff.mpr ?_)))
    exact omitDefaultReportFields_strip (redactReport_strip hreports _ _) _ _
  · have hstrip := strip_eq_of_only (hlike.refine halike)
    split
    · rename_i heq
      rw [heq] at hnot
      cases hnot
    · split
      · rename_i heq
        rw [heq] at hnot'
        cases hnot'
      · exact alike_dict_iff.mpr hstrip

end Redaction

/-! ## The fingerprint -/

variable {s s' : Mem} {j j' : JobConfig}

section Fingerprint

variable {A A' : Allocator} {floatRepr : Rat → Text} {sha256 : Text → String}
  {fleet fleet' : Fleet}

private lemma strip_orNull {v w : Option PyValue}
    (h : v.map PyValue.strip = w.map PyValue.strip) : (orNull v).strip = (orNull w).strip := by
  have hstrip : ∀ x : Option PyValue, (orNull x).strip = orNull (x.map PyValue.strip) := by
    rintro (_ | x) <;> rfl
  rw [hstrip, hstrip, h]

private lemma strip_whenSet (k : String) {v w : Option PyValue}
    (h : v.map PyValue.strip = w.map PyValue.strip) :
    Items.strip (whenSet k v) = Items.strip (whenSet k w) := by
  have hstrip : ∀ x : Option PyValue, Items.strip (whenSet k x) =
      whenSet k (x.map PyValue.strip) := by
    rintro (_ | x) <;> rfl
  rw [hstrip, hstrip, h]

/-- The canonical forms of such jobs are the same, but for the identity of dictionaries. -/
theorem identityItems_strip (h : DifferOnlyInSecrets j j') {f p o f' p' o' : PyValue}
    (hf : f.Alike f') (hp : p.Alike p') (ho : o.Alike o') (c q l c' q' l' : ℕ) :
    (identityItems j (.dict c (commandRepr j.command)) f p o ((poolIdentity j).map (.dict q))
        ((limitsIdentity j).map (.dict l))).strip =
      (identityItems j' (.dict c' (commandRepr j'.command)) f' p' o'
        ((poolIdentity j').map (.dict q')) ((limitsIdentity j').map (.dict l'))).strip := by
  have hscalar : scalarIdentity j' = scalarIdentity j := by rw [h.rest]; rfl
  have hextra : nondefaultIdentity j' = nondefaultIdentity j := by rw [h.rest]; rfl
  have hpool : poolIdentity j' = poolIdentity j := by rw [h.rest]; rfl
  have hlimits : limitsIdentity j' = limitsIdentity j := by rw [h.rest]; rfl
  have hname : j'.name = j.name := by rw [h.rest]
  have hcommand : j'.command = j.command := by rw [h.rest]
  have hschedule : j'.schedule = j.schedule := by rw [h.rest]
  have hzone : j'.timezone = j.timezone := by rw [h.rest]
  have huser : j'.user = j.user := by rw [h.rest]
  have hgroup : j'.group = j.group := by rw [h.rest]
  have hdicts : ∀ (x : Option Items) (a b : ℕ),
      (x.map (PyValue.dict a)).map PyValue.strip = (x.map (PyValue.dict b)).map PyValue.strip := by
    rintro (_ | x) a b
    · rfl
    · exact congrArg some (alike_dict_iff.mpr rfl)
  have hstatsd := strip_orNull (v := j.statsd.map Block.value) (w := j'.statsd.map Block.value)
    (by rw [Option.map_map, Option.map_map]; exact h.statsd)
  have hverify := strip_whenSet "verify" (v := j.verify.map Block.value)
    (w := j'.verify.map Block.value) (by rw [Option.map_map, Option.map_map]; exact h.verify)
  have happend : ∀ x y : Items, Items.strip (x ++ y) = Items.strip x ++ Items.strip y := fun x y =>
    map_append
  have hhooks : f.strip = f'.strip ∧ p.strip = p'.strip ∧ o.strip = o'.strip := ⟨hf, hp, ho⟩
  have hfails : j.failsWhen.value.strip = j'.failsWhen.value.strip := h.failsWhen
  have hupdate : ∀ {x x' y y' z z' : Items}, x.strip = x'.strip → y.strip = y'.strip →
      z.strip = z'.strip → ((x.update y).update z).strip = ((x'.update y').update z').strip := by
    intro x x' y y' z z' hx hy hz
    rw [strip_update, strip_update, strip_update, strip_update, hx, hy, hz]
  refine hupdate ?_ (by rw [hscalar]) ?_
  · simp only [Items.strip, map_cons, map_nil, hname, hcommand, hschedule, hzone, huser,
      hgroup, hstatsd, h.environment, hhooks, hfails, PyValue.strip_dict]
  · simp only [happend]
    rw [hextra, hverify, hpool, hlimits, strip_whenSet "pool" (hdicts _ q q'),
      strip_whenSet "resourceLimits" (hdicts _ l l')]

/-- Jobs that differ only in secrets have canonical forms that are alike. -/
theorem canonicalJob_alike (h : DifferOnlyInSecrets j j') (hj : j ∈ fleet.jobs)
    (hj' : j' ∈ fleet'.jobs) (hs : MemSound A floatRepr fleet s)
    (hs' : MemSound A' floatRepr fleet' s') :
    (canonicalJob A j s).1.value.Alike (canonicalJob A' j' s').1.value := by
  obtain ⟨f, p, o, c, q, l, ⟨t₁, rfl⟩, ⟨t₂, rfl⟩, ⟨t₃, rfl⟩, hitems, -⟩ := canonicalJob_spec hs hj
  obtain ⟨f', p', o', c', q', l', ⟨u₁, rfl⟩, ⟨u₂, rfl⟩, ⟨u₃, rfl⟩, hitems', -⟩ :=
    canonicalJob_spec hs' hj'
  refine alike_dict_iff.mpr ?_
  rw [hitems, hitems']
  exact identityItems_strip h (redactBlock_alike h.onFailure t₁ u₁)
    (redactBlock_alike h.onPermanentFailure t₂ u₂) (redactBlock_alike h.onSuccess t₃ u₃) _ _ _ _ _ _

variable (sha256) in
lemma jobDigest_eq (h : DifferOnlyInSecrets j j') (hj : j ∈ fleet.jobs) (hj' : j' ∈ fleet'.jobs)
    (hs : MemSound A floatRepr fleet s) (hs' : MemSound A' floatRepr fleet' s') :
    (jobDigest A floatRepr sha256 j s).1 = (jobDigest A' floatRepr sha256 j' s').1 := by
  have halike : (canonicalJob A j s).1.value.strip = (canonicalJob A' j' s').1.value.strip :=
    canonicalJob_alike h hj hj' hs hs'
  rw [(jobDigest_spec sha256 hs hj).1, (jobDigest_spec sha256 hs' hj').1, halike]

/-- The memory of a call without a memo. -/
def bareMem : Mem := ⟨none, [], 0⟩

/-- A job differs in nothing from itself. -/
theorem DifferOnlyInSecrets.refl (j : JobConfig) : DifferOnlyInSecrets j j where
  rest := rfl
  environment := rfl
  secrets := forall₂_same.mpr fun _ _ => rfl
  failsWhen := .refl _
  statsd := rfl
  verify := rfl
  onFailure := .inl (.refl _)
  onPermanentFailure := .inl (.refl _)
  onSuccess := .inl (.refl _)

variable (sha256) in
/-- The digests of a job list with a memo are those of its jobs without one. -/
theorem digests_eq_map (A' : Allocator) {jobs : List JobConfig} (hjobs : jobs ⊆ fleet.jobs)
    (hs : MemSound A floatRepr fleet s) :
    (fleet.digests A floatRepr sha256 jobs s).1 =
      jobs.map fun job => (jobDigest A' floatRepr sha256 job bareMem).1 := by
  induction jobs generalizing s with
  | nil => rfl
  | cons job jobs ih =>
    obtain ⟨hjob, hjobs⟩ := cons_subset.mp hjobs
    have hbare : MemSound A' floatRepr fleet bareMem := memSound_of_none rfl
    simp only [Fleet.digests, map_cons]
    rw [jobDigest_eq sha256 (.refl job) hjob hjob hs hbare,
      ih hjobs (jobDigest_spec sha256 hs hjob).2.release]

/-- Related lists, with where the related elements are from. -/
private lemma forall₂_mem {α β : Type} {R : α → β → Prop} {l : List α} {l' : List β}
    (h : List.Forall₂ R l l') : List.Forall₂ (fun a b => a ∈ l ∧ b ∈ l' ∧ R a b) l l' := by
  have hright : List.Forall₂ (fun a b => b ∈ l' ∧ R a b) l l' :=
    .flip ((forall₂_and_left l' l).mpr ⟨fun _ hb => hb, h.flip⟩)
  exact (forall₂_and_left l l').mpr ⟨fun _ ha => ha, hright⟩

variable (sha256) in
/-- An id is the same for jobs in another order that differ only in secrets. -/
theorem jobSetId_eq (A A' : Allocator) {jobs : List JobConfig} (hperm : fleet.jobs.Perm jobs)
    (h : List.Forall₂ DifferOnlyInSecrets jobs fleet'.jobs) :
    fleet.jobSetId A floatRepr sha256 = fleet'.jobSetId A' floatRepr sha256 := by
  have hplain : jobs.map (fun job => (jobDigest A floatRepr sha256 job bareMem).1) =
      fleet'.jobs.map fun job => (jobDigest A floatRepr sha256 job bareMem).1 := by
    rw [← forall₂_eq_eq_eq, forall₂_map_left_iff, forall₂_map_right_iff]
    refine (forall₂_mem h).imp ?_
    rintro j j' ⟨hj, hj', hjj⟩
    exact jobDigest_eq sha256 hjj (hperm.mem_iff.mpr hj) hj' (memSound_of_none rfl)
      (memSound_of_none rfl)
  have hdigests : (fleet.digests A floatRepr sha256 fleet.jobs fleet.start).1.Perm
      (fleet'.digests A' floatRepr sha256 fleet'.jobs fleet'.start).1 := by
    rw [digests_eq_map sha256 A (List.Subset.refl _) memSound_start,
      digests_eq_map sha256 A (List.Subset.refl _) memSound_start, ← hplain]
    exact hperm.map _
  -- sorting forgets the order
  have hsorted : (fleet.digests A floatRepr sha256 fleet.jobs fleet.start).1.insertionSort (· ≤ ·) =
      (fleet'.digests A' floatRepr sha256 fleet'.jobs fleet'.start).1.insertionSort (· ≤ ·) :=
    List.Perm.eq_of_pairwise' (pairwise_insertionSort _ _) (pairwise_insertionSort _ _)
      (((perm_insertionSort _ _).trans hdigests).trans (perm_insertionSort _ _).symm)
  unfold Fleet.jobSetId
  simp only [hsorted]

variable (A floatRepr sha256) in
/-- What a call on a job of the fleet may start from: no memo, or one with which some jobs of the
fleet were digested. -/
def Fleet.Ready (fleet : Fleet) (s : Mem) : Prop :=
  s.memo = none ∨ ∃ done ⊆ fleet.jobs, s = (fleet.digests A floatRepr sha256 done fleet.start).2

lemma Fleet.Ready.memSound (h : fleet.Ready A floatRepr sha256 s) :
    MemSound A floatRepr fleet s := by
  rcases h with h | ⟨done, hdone, rfl⟩
  · exact memSound_of_none h
  · exact sound_digests sha256 hdone memSound_start

end Fingerprint

/-- Job lists that differ only in secrets have the same canonical forms and digests, job by job,
and the same id: whatever was digested with the memo before, and however memory is handed out. -/
theorem fingerprint_hides_secrets (A A' : Allocator) (floatRepr : Rat → Text)
    (sha256 : Text → String) {fleet fleet' : Fleet}
    (h : List.Forall₂ DifferOnlyInSecrets fleet.jobs fleet'.jobs) :
    List.Forall₂ (fun j j' => ∀ s s', fleet.Ready A floatRepr sha256 s →
        fleet'.Ready A' floatRepr sha256 s' →
        (canonicalJob A j s).1.value.Alike (canonicalJob A' j' s').1.value ∧
        (jobDigest A floatRepr sha256 j s).1 = (jobDigest A' floatRepr sha256 j' s').1)
      fleet.jobs fleet'.jobs ∧
    fleet.jobSetId A floatRepr sha256 = fleet'.jobSetId A' floatRepr sha256 := by
  constructor
  · refine (forall₂_mem h).imp ?_
    rintro j j' ⟨hj, hj', hjj⟩ s s' hs hs'
    exact ⟨canonicalJob_alike hjj hj hj' hs.memSound hs'.memSound,
      jobDigest_eq sha256 hjj hj hj' hs.memSound hs'.memSound⟩
  · exact jobSetId_eq sha256 A A' (.refl _) h

/-! A job that posts to a webhook when it fails, once with one token and once with another. The
second list has a hook block of its own for each hook, and the first shares one. -/

/-- The allocator that takes an address above all in use. -/
private def above : Allocator where
  pick _ live := live.sum + 1
  fresh _ _ h := Nat.not_succ_le_self _ (List.le_sum_of_mem h)

private def webhookItems (a : ℕ) (url token : String) : Items :=
  [("url", .dict (a + 3) [("value", .str url)]),
    ("headers", .dict (a + 4) [("Authorization", .str token)])]

/-- A block with a report to a webhook, at the addresses from `a` on. -/
private def webhookBlock (a : ℕ) (url token : String) : Block :=
  ⟨a, [("report", .dict (a + 1) [("webhook", .dict (a + 2) (webhookItems a url token))])]⟩

private def webhookJob (a b c : ℕ) (url token password : String) : JobConfig where
  name := "backup"
  command := .shell "backup.sh"
  schedule := .line "0 3 * * *"
  timezone := some "UTC"
  failsWhen := ⟨90, [("nonzeroReturn", .bool true)]⟩
  onFailure := webhookBlock a url token
  onPermanentFailure := webhookBlock b url token
  onSuccess := webhookBlock c url token
  environment := [⟨"PGPASSWORD", password⟩]
  secrets := [⟨"db", some password, none, none⟩]
  statsd := none
  user := none
  group := none
  shell := "/bin/sh"
  concurrencyPolicy := .allow
  concurrencyScope := .node
  clusterPolicy := .leader
  onlyIfLastSucceeded := false
  captureStderr := true
  captureStdout := false
  saveLimit := 4096
  maxLineLength := 16777216
  executionTimeout := none
  killTimeout := .int 30
  priority := .normal
  streamPrefix := ""
  enabled := true
  verify := none
  pool := none
  poolSlots := 1
  queuePriority := 0
  queueTimeout := .int 3600
  resourceLimits := none

private lemma hook_webhookBlock (a b : ℕ) (url url' token token' : String) :
    Hook (webhookBlock a url token) (webhookBlock b url' token') := by
  have hsource : SecretSource (.dict (a + 3) [("value", .str url)])
      (.dict (b + 3) [("value", .str url')]) :=
    .inr ⟨_, _, _, _, rfl, rfl, ⟨by simp [Items.keys], .cons ⟨rfl, .inr ⟨rfl, rfl⟩⟩ .nil⟩⟩
  have hheaders : Headers (.dict (a + 4) [("Authorization", .str token)])
      (.dict (b + 4) [("Authorization", .str token')]) :=
    .inr ⟨_, _, _, _, rfl, rfl, rfl⟩
  have hwebhook : Webhook (.dict (a + 2) (webhookItems a url token))
      (.dict (b + 2) (webhookItems b url' token')) :=
    .inr ⟨_, _, _, _, rfl, rfl,
      ⟨by simp [Items.keys, webhookItems], .cons ⟨rfl, hsource⟩ (.cons ⟨rfl, hheaders⟩ .nil)⟩⟩
  have hreport : Report (.dict (a + 1) [("webhook", .dict (a + 2) (webhookItems a url token))])
      (.dict (b + 1) [("webhook", .dict (b + 2) (webhookItems b url' token'))]) :=
    .inr ⟨_, _, _, _, rfl, rfl, ⟨by simp [Items.keys], .cons ⟨rfl, hwebhook⟩ .nil⟩⟩
  exact .inr ⟨_, _, _, _, rfl, rfl, ⟨by simp [webhookBlock, Items.keys], .cons ⟨rfl, hreport⟩ .nil⟩⟩

private def sharedFleet : Fleet where
  jobs := [webhookJob 10 10 10 "https://hooks/one" "token-1" "pw-1"]
  coherent := by simp [JobConfig.hooks, webhookJob]

private def unsharedFleet : Fleet where
  jobs := [webhookJob 10 20 30 "https://hooks/two" "token-2" "pw-2"]
  coherent := by simp [JobConfig.hooks, webhookJob, webhookBlock]

private lemma differ_webhook : List.Forall₂ DifferOnlyInSecrets sharedFleet.jobs
    unsharedFleet.jobs :=
  .cons
    { rest := rfl
      environment := rfl
      secrets := .cons rfl .nil
      failsWhen := .refl _
      statsd := rfl
      verify := rfl
      onFailure := hook_webhookBlock _ _ _ _ _ _
      onPermanentFailure := hook_webhookBlock _ _ _ _ _ _
      onSuccess := hook_webhookBlock _ _ _ _ _ _ }
    .nil

/-- The two lists have one id. -/
theorem fingerprint_hides_secrets_webhook :
    List.Forall₂ DifferOnlyInSecrets sharedFleet.jobs unsharedFleet.jobs ∧
      sharedFleet.jobSetId above (fun _ => []) String.ofList =
        unsharedFleet.jobSetId above (fun _ => []) String.ofList :=
  ⟨differ_webhook, (fingerprint_hides_secrets above above _ _ differ_webhook).2⟩

/-! ## Order and sharing -/

/-- The same job with other block objects, which are equal to those that they replace. -/
structure Copies (j j' : JobConfig) : Prop where
  rest : j' = { j with
    failsWhen := j'.failsWhen, statsd := j'.statsd, verify := j'.verify, onFailure := j'.onFailure
    onPermanentFailure := j'.onPermanentFailure, onSuccess := j'.onSuccess }
  failsWhen : j.failsWhen.value.Alike j'.failsWhen.value
  statsd : j.statsd.map (fun b => b.value.strip) = j'.statsd.map fun b => b.value.strip
  verify : j.verify.map (fun b => b.value.strip) = j'.verify.map fun b => b.value.strip
  onFailure : j.onFailure.value.Alike j'.onFailure.value
  onPermanentFailure : j.onPermanentFailure.value.Alike j'.onPermanentFailure.value
  onSuccess : j.onSuccess.value.Alike j'.onSuccess.value

/-- Jobs that are equal but for the objects that they are made of differ in no secret either. -/
theorem Copies.differOnlyInSecrets {j j' : JobConfig} (h : Copies j j') :
    DifferOnlyInSecrets j j' where
  rest := by rw [h.rest]
  environment := by rw [h.rest]
  secrets := by
    rw [h.rest]
    exact forall₂_same.mpr fun _ _ => rfl
  failsWhen := h.failsWhen
  statsd := h.statsd
  verify := h.verify
  onFailure := .inl h.onFailure
  onPermanentFailure := .inl h.onPermanentFailure
  onSuccess := .inl h.onSuccess

/-- The bytes of a job: `_canonical_bytes(canonical_job(job, memo), memo)`. -/
def jobBytes (A : Allocator) (floatRepr : Rat → Text) (job : JobConfig) (s : Mem) : Text :=
  (canonicalBytes A floatRepr (canonicalJob A job s).1.value (canonicalJob A job s).2).1

/-- With the memo of the jobs before it, a job has the bytes that it has without a memo: the JSON,
its keys sorted, of the canonical form with its numbers normalized. The id forgets the order of the
jobs and which of their blocks are one object. -/
theorem splice_eq_plain (A A' : Allocator) (floatRepr : Rat → Text) (sha256 : Text → String)
    (fleet : Fleet) :
    (∀ done job rest, fleet.jobs = done ++ job :: rest → ∀ s : Mem, s.memo = none →
      jobBytes A floatRepr job (fleet.digests A floatRepr sha256 done fleet.start).2 =
          jobBytes A' floatRepr job s ∧
        jobBytes A' floatRepr job s = encode floatRepr
          (normalizeNumbers A' none (canonicalJob A' job s).1.value (canonicalJob A' job s).2).1) ∧
    ∀ (jobs : List JobConfig) (fleet' : Fleet), fleet.jobs.Perm jobs →
      List.Forall₂ Copies jobs fleet'.jobs →
      fleet.jobSetId A floatRepr sha256 = fleet'.jobSetId A' floatRepr sha256 := by
  constructor
  · intro done job rest hjobs s hnone
    have hjob : job ∈ fleet.jobs := by
      rw [hjobs]
      exact mem_append_right _ mem_cons_self
    have hdone : done ⊆ fleet.jobs := by
      rw [hjobs]
      exact subset_append_left _ _
    have hspliced : MemSound A floatRepr fleet
        (fleet.digests A floatRepr sha256 done fleet.start).2 :=
      sound_digests sha256 hdone memSound_start
    have hplain : MemSound A' floatRepr fleet s := memSound_of_none hnone
    have hform := canonicalJob_alike (.refl job) hjob hjob hspliced hplain
    have hbytes : jobBytes A' floatRepr job s =
        encode floatRepr (collapse (canonicalJob A' job s).1.value.strip) :=
      (canonicalBytes_spec hplain hjob).1
    refine ⟨?_, ?_⟩
    · rw [hbytes, ← hform]
      exact (canonicalBytes_spec hspliced hjob).1
    · rw [hbytes, ← encode_strip floatRepr (normalizeNumbers _ _ _ _).1, serves_none]
  · intro jobs fleet' hperm hcopies
    exact jobSetId_eq sha256 A A' hperm (hcopies.imp fun _ _ h => h.differOnlyInSecrets)

/-- The webhook job and another one, with hook blocks at the given addresses. -/
private def backupJob (a b c : ℕ) : JobConfig := webhookJob a b c "https://hooks/one" "token" "pw"

private def restoreJob (a b c : ℕ) : JobConfig := { backupJob a b c with name := "restore" }

/-- All hooks of both jobs are one object. -/
private def oneBlockFleet : Fleet where
  jobs := [backupJob 10 10 10, restoreJob 10 10 10]
  coherent := by simp [JobConfig.hooks, backupJob, restoreJob, webhookJob]

/-- The jobs in the other order, and no block is shared. -/
private def ownBlocksFleet : Fleet where
  jobs := [restoreJob 40 50 60, backupJob 10 20 30]
  coherent := by simp [JobConfig.hooks, backupJob, restoreJob, webhookJob, webhookBlock]

/-- The second of two jobs with one block between them has its plain bytes, and the id is that of
the jobs in the other order with blocks of their own. -/
theorem splice_eq_plain_webhook :
    jobBytes above (fun _ => []) (restoreJob 10 10 10) (oneBlockFleet.digests above (fun _ => [])
        String.ofList [backupJob 10 10 10] oneBlockFleet.start).2 =
      jobBytes above (fun _ => []) (restoreJob 10 10 10) bareMem ∧
    oneBlockFleet.jobSetId above (fun _ => []) String.ofList =
      ownBlocksFleet.jobSetId above (fun _ => []) String.ofList := by
  have h := splice_eq_plain above above (fun _ => []) String.ofList oneBlockFleet
  exact ⟨(h.1 [backupJob 10 10 10] (restoreJob 10 10 10) [] rfl bareMem rfl).1,
    h.2 _ ownBlocksFleet (List.Perm.swap _ _ _)
      (.cons ⟨rfl, rfl, rfl, rfl, rfl, rfl, rfl⟩ (.cons ⟨rfl, rfl, rfl, rfl, rfl, rfl, rfl⟩ .nil))⟩

end Cronstable.Fingerprint
