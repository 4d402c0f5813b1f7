import LeasedLocks.Http.Access

/-!
# Asking without the key

Whoever does not show the key is told so and nothing else: the answer does not depend on
the authority, and the authority is as it was. Everybody else is answered by
`Authority.answerOpen`, which knows of no key (`Authority.answer_by_key`). So a history with
refused requests in it leaves the answers to all others and the authority as the history
without them does.
-/

namespace LeasedLocks

namespace HttpRequest

/-- A name of a header, in any mixture of capital and small letters. -/
def IsNamed (name key : String) : Prop := key.toList.map Char.toLower = name.toList

/-- The first value of the `authorization` header is `Bearer`, one space and the key, in
characters that can be read as text. -/
def ShowsKey (key : String) (r : HttpRequest) : Prop :=
  ∃ before name after, r.headers = before ++ (name, "Bearer " ++ key) :: after ∧
    IsNamed "authorization" name ∧ (∀ h ∈ before, ¬ IsNamed "authorization" h.1) ∧
    ∀ c ∈ ("Bearer " ++ key).toList, isPlain c = true

/-- There is a key, the request needs it and does not show it. -/
def IsOutside (setting : KeySetting) (r : HttpRequest) : Prop :=
  ∃ k, setting = .text k ∧ k ≠ "" ∧ r.method ≠ "OPTIONS" ∧ r.path ≠ "/health" ∧
    ¬ r.ShowsKey k

/-- The request is one for the service itself, and nothing keeps it out. -/
def IsServed (setting : KeySetting) (r : HttpRequest) : Prop :=
  r.method ≠ "OPTIONS" ∧ ¬ r.IsOutside setting

variable {r : HttpRequest} {setting : KeySetting} {k name value : String}

/-- A header is read if the first one of its name holds text. -/
theorem header?_eq_some_iff : r.header? name = some value ↔
    ∃ before key after, r.headers = before ++ (key, value) :: after ∧ IsNamed name key ∧
      (∀ h ∈ before, ¬ IsNamed name h.1) ∧ ∀ c ∈ value.toList, isPlain c = true := by
  simp only [header?, Option.bind_eq_bind, Option.bind_eq_some_iff,
    List.find?_eq_some_iff_append, beq_iff_eq, Bool.not_eq_true', beq_eq_false_iff_ne,
    Option.ite_none_right_eq_some, List.all_eq_true, IsNamed]
  constructor
  · rintro ⟨⟨key, value⟩, ⟨hkey, before, after, hheaders, hbefore⟩, hplain, heq⟩
    cases heq
    exact ⟨before, key, after, hheaders, hkey, hbefore, hplain⟩
  · rintro ⟨before, key, after, hheaders, hkey, hbefore, hplain⟩
    exact ⟨(key, value), ⟨hkey, before, after, hheaders, hbefore⟩, hplain, rfl⟩

/-- What comes with a request is what stands behind `Bearer` and the space. -/
theorem bearer?_eq_some_iff : r.bearer? = some k.toList ↔ r.ShowsKey k := by
  simp only [bearer?, Option.bind_eq_bind, Option.bind_eq_some_iff,
    Option.ite_none_right_eq_some, Option.some.injEq]
  have hvalue (value : String) :
      (value.toList.take "Bearer ".toList.length = "Bearer ".toList ∧
        value.toList.drop "Bearer ".toList.length = k.toList) ↔ value = "Bearer " ++ k := by
    constructor
    · rintro ⟨htake, hdrop⟩
      apply String.toList_injective
      rw [String.toList_append]
      calc value.toList = value.toList.take _ ++ value.toList.drop _ :=
            (List.take_append_drop _ _).symm
        _ = "Bearer ".toList ++ k.toList := by rw [htake, hdrop]
    · rintro rfl
      simp
  simp only [hvalue, exists_eq_right, header?_eq_some_iff]
  exact Iff.rfl

theorem isAdmitted_eq_false_iff : r.isAdmitted setting = false ↔
    ∃ k, setting = .text k ∧ k ≠ "" ∧ r.path ≠ "/health" ∧ ¬ r.ShowsKey k := by
  cases setting with
  | unset => simp [isAdmitted, KeySetting.required?]
  | unreadable => simp [isAdmitted, KeySetting.required?]
  | text k =>
      by_cases hk : k = "" <;>
        simp [isAdmitted, KeySetting.required?, hk, bearer?_eq_some_iff]

theorem isOutside_iff :
    r.IsOutside setting ↔ r.method ≠ "OPTIONS" ∧ r.isAdmitted setting = false := by
  rw [isAdmitted_eq_false_iff]
  constructor
  · rintro ⟨k, hkey, hne, hmethod, hpath, hshows⟩
    exact ⟨hmethod, k, hkey, hne, hpath, hshows⟩
  · rintro ⟨hmethod, k, hkey, hne, hpath, hshows⟩
    exact ⟨k, hkey, hne, hmethod, hpath, hshows⟩

instance : Decidable (r.IsOutside setting) := decidable_of_iff' _ isOutside_iff

instance : Decidable (r.IsServed setting) := inferInstanceAs (Decidable (_ ∧ _))

/-- Served is whoever needs no key or shows the right one. -/
theorem isServed_iff : r.IsServed setting ↔ r.method ≠ "OPTIONS" ∧
    ∀ k, setting = .text k → k = "" ∨ r.path = "/health" ∨ r.ShowsKey k := by
  refine and_congr_right fun hmethod => ?_
  constructor
  · intro h k hkey
    by_cases hne : k = ""
    · exact .inl hne
    by_cases hpath : r.path = "/health"
    · exact .inr (.inl hpath)
    · refine .inr (.inr (Classical.byContradiction fun hshows => ?_))
      exact h ⟨k, hkey, hne, hmethod, hpath, hshows⟩
  · rintro h ⟨k, hkey, hne, -, hpath, hshows⟩
    rcases h k hkey with hk | hk | hk
    · exact hne hk
    · exact hpath hk
    · exact hshows hk

end HttpRequest

namespace Authority

variable {a : Authority} {setting : KeySetting} {now : Millis} {r : HttpRequest}

/-- Lets a service answer requests one after the other, each at its own date; every answer
is kept with its request. -/
def answerAll (service : Authority → Millis → HttpRequest → HttpResponse × Authority)
    (a : Authority) : List (Millis × HttpRequest) → List (HttpRequest × HttpResponse) × Authority
  | [] => ([], a)
  | (now, r) :: rest =>
    let (response, a) := service a now r
    let (answers, a) := a.answerAll service rest
    ((r, response) :: answers, a)

theorem answer_of_isOutside (h : r.IsOutside setting) :
    a.answer setting now r = (.bare .unauthorized, a) := by
  obtain ⟨hmethod, hadmitted⟩ := HttpRequest.isOutside_iff.mp h
  rw [answer, if_neg hmethod, hadmitted]
  rfl

theorem answer_of_options (h : r.method = "OPTIONS") :
    a.answer setting now r = (.bare .ok, a) := if_pos h

theorem answer_of_isServed (h : r.IsServed setting) :
    a.answer setting now r = a.answerOpen now r := by
  obtain ⟨hmethod, hinside⟩ := h
  rw [HttpRequest.isOutside_iff, not_and, Bool.not_eq_false] at hinside
  rw [answer, if_neg hmethod, if_pos (hinside hmethod)]

/-- Whoever is not served leaves the authority as it is. -/
theorem snd_answer_of_not_isServed (h : ¬ r.IsServed setting) :
    (a.answer setting now r).2 = a := by
  by_cases hmethod : r.method = "OPTIONS"
  · rw [answer_of_options hmethod]
  · rw [answer_of_isOutside (Decidable.not_not.mp fun hinside => h ⟨hmethod, hinside⟩)]

/-- Those who are not served change nothing for those who are. -/
theorem answerAll_of_key (a : Authority) (setting : KeySetting)
    (rs : List (Millis × HttpRequest)) :
    (a.answerAll (answer setting) rs).1.filter (·.1.IsServed setting) =
        (a.answerAll answerOpen (rs.filter (·.2.IsServed setting))).1 ∧
      (a.answerAll (answer setting) rs).2 =
        (a.answerAll answerOpen (rs.filter (·.2.IsServed setting))).2 := by
  induction rs generalizing a with
  | nil => exact ⟨rfl, rfl⟩
  | cons p rs ih =>
      obtain ⟨now, r⟩ := p
      by_cases h : r.IsServed setting
      · simpa [answerAll, h, answer_of_isServed h] using ih (a.answerOpen now r).2
      · simpa [answerAll, h, snd_answer_of_not_isServed h] using ih a

/-- How the key decides on the answers. -/
structure AnswersByKey (setting : KeySetting) : Prop where
  /-- Whoever is outside is refused with 401 and changes nothing, neither the table nor
  what was announced. -/
  refused : ∀ (a : Authority) (now : Millis) (r : HttpRequest), r.IsOutside setting →
    (a.answer setting now r).1.status.code = 401 ∧ (a.answer setting now r).2 = a
  /-- The refusal tells nothing of the authority. -/
  refused_alike : ∀ (a b : Authority) (now later : Millis) (r : HttpRequest),
    r.IsOutside setting → (a.answer setting now r).1 = (b.answer setting later r).1
  /-- Whoever shows the right key is answered as by a service without one. -/
  shown : ∀ (k : String) (a : Authority) (now : Millis) (r : HttpRequest),
    setting = .text k → r.method ≠ "OPTIONS" → r.ShowsKey k →
      a.answer setting now r = a.answerOpen now r
  /-- So is everybody where no key is set, or the empty one. -/
  unguarded : setting.required? = none → ∀ (a : Authority) (now : Millis) (r : HttpRequest),
    r.method ≠ "OPTIONS" → a.answer setting now r = a.answerOpen now r
  /-- And so is whoever is not outside. -/
  served : ∀ (a : Authority) (now : Millis) (r : HttpRequest), r.method ≠ "OPTIONS" →
    ¬ r.IsOutside setting → a.answer setting now r = a.answerOpen now r
  /-- What is asked with `OPTIONS` neither reads nor changes anything. -/
  options : ∀ (a : Authority) (now : Millis) (r : HttpRequest), r.method = "OPTIONS" →
    a.answer setting now r = (.bare .ok, a)
  /-- In a history of requests those who are served get the answers, and leave the
  authority, of a service without a key that nobody else asks. -/
  unaffected : ∀ (a : Authority) (rs : List (Millis × HttpRequest)),
    (a.answerAll (answer setting) rs).1.filter (·.1.IsServed setting) =
        (a.answerAll answerOpen (rs.filter (·.2.IsServed setting))).1 ∧
      (a.answerAll (answer setting) rs).2 =
        (a.answerAll answerOpen (rs.filter (·.2.IsServed setting))).2

/-- Without the key nothing is done and nothing is learned; with it, or where there is
none, everything is as if there were none. -/
theorem answer_by_key (setting : KeySetting) : AnswersByKey setting where
  refused a now r h := by
    rw [answer_of_isOutside h]
    exact ⟨rfl, rfl⟩
  refused_alike a b now later r h := by rw [answer_of_isOutside h, answer_of_isOutside h]
  shown k a now r hkey hmethod hshows := by
    refine answer_of_isServed (HttpRequest.isServed_iff.mpr ⟨hmethod, fun k' hk' => ?_⟩)
    obtain rfl : k = k' := KeySetting.text.inj (hkey.symm.trans hk')
    exact .inr (.inr hshows)
  unguarded hnone a now r hmethod := by
    refine answer_of_isServed (HttpRequest.isServed_iff.mpr ⟨hmethod, ?_⟩)
    rintro k rfl
    left
    simpa [KeySetting.required?] using hnone
  served a now r hmethod hinside := answer_of_isServed ⟨hmethod, hinside⟩
  options a now r hmethod := answer_of_options hmethod
  unaffected a rs := answerAll_of_key a setting rs

/-- The locks are cleared for whoever shows the key, and not for whoever shows only the
beginning of it. -/
theorem cleared_with_key :
    let setting := KeySetting.text "secret"
    let a := ofTable {} (.ofHoldings [.ofRequest (Request.of "order") 100 0])
    let shown : HttpRequest := ⟨"DELETE", "/locks", [("Authorization", "Bearer secret")], ""⟩
    let cut : HttpRequest := ⟨"DELETE", "/locks", [("Authorization", "Bearer secre")], ""⟩
    a.isLocked "order" = true ∧
      a.answer setting 5 shown = a.answerOpen 5 shown ∧
      (a.answer setting 5 shown).1.status.code = 200 ∧
      (a.answer setting 5 shown).2.isLocked "order" = false ∧
      (a.answer setting 5 cut).1.status.code = 401 ∧ (a.answer setting 5 cut).2 = a := by
  intro setting a shown cut
  have hshown : a.answer setting 5 shown = a.answerOpen 5 shown :=
    (answer_by_key setting).served a 5 shown (by decide) (by decide)
  have hcut := (answer_by_key setting).refused a 5 cut (by decide)
  refine ⟨by decide, hshown, ?_, ?_, hcut⟩
  · rw [hshown]
    decide
  · rw [hshown]
    decide

end Authority

end LeasedLocks
