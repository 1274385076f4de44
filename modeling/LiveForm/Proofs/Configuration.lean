import LiveForm.Proofs.Settings

/-!
# What a configuration is read as

Reading settings ends in settings in range or in an error that says what is wrong with an entry, but
for a few documents.  Which ones these are is said exactly: a number that is "not a number" is taken
as it is, and an integer out of range, a list or a table in the place of a name, and anything but a
table in the place of the tools make the reading fail in another way.
-/

namespace LiveForm.Settings

variable {place key : String} {d : Data} {s s' : Settings} {err : SettingsError}
  {entries es : List (String × Data)} {k : Key}

/-! ## An entry -/

/-- The setting that a written key stands for. -/
def keyOf (key : String) : Option Key := keys.lookup (normalizeKey key)

/-- What a setting is when an entry with this data was put in. -/
def entered : Key → Data → Value
  | .number _, .scalar (.integer i) => .number (.ofInt i)
  | _, .scalar v => v
  | _, _ => .absent

theorem get_setNumber (s : Settings) (k : NumberKey) (k' : Key) (x : Binary64) :
    (s.setNumber k x).get k' = if k' = .number k then .number x else s.get k' := by
  cases k' with
  | number k' =>
    simp only [get, getNumber_setNumber, Key.number.injEq]
    split <;> rfl
  | count k' => simp [get, getCount_setNumber]
  | locale => cases k <;> rfl

theorem get_setCount (s : Settings) (k : CountKey) (k' : Key) (i : Int) :
    (s.setCount k i).get k' = if k' = .count k then .integer i else s.get k' := by
  cases k' with
  | number k' => simp [get, getNumber_setCount]
  | count k' =>
    simp only [get, getCount_setCount, Key.count.injEq]
    split <;> rfl
  | locale => cases k <;> rfl

/-- The data that break the reading of settings under a key, and the failure: an integer that is
too large for a number, and a list or a table in the place of a name. -/
inductive Breaks (key : String) : Data → SettingsError → Prop
  | number {k : NumberKey} {i : Int} (hk : keyOf key = some (.number k)) (hi : 0 ≤ i)
    (hlarge : (Binary64.ofInt i).isFinite = false) :
    Breaks key (.scalar (.integer i)) .outOfRange
  | list {items : List Data} (hk : keyOf key = some .locale) : Breaks key (.list items) .notAName
  | table {es : List (String × Data)} (hk : keyOf key = some .locale) :
    Breaks key (.table es) .notAName

/-- What putting an entry in comes to, whatever the settings are: the setting that its key stands
for is set and the others are left, or the entry is refused. -/
inductive Outcome (place key : String) (d : Data) : Prop
  | taken (k : Key) (hk : keyOf key = some k)
    (put : ∀ s : Settings, ∃ s', s.put place key d = .ok s' ∧
      ∀ k', s'.get k' = if k' = k then entered k d else s.get k')
  | refused (err : SettingsError) (herr : err.isConfigError = true ∨ Breaks key d err)
    (put : ∀ s : Settings, s.put place key d = .error err)

theorem outcome_number (place : String) {k : NumberKey} (hk : keyOf key = some (.number k))
    (d : Data) : Outcome place key d := by
  have hlookup : keys.lookup (normalizeKey key) = some (.number k) := hk
  have hrefused : (∀ s : Settings, s.put place key d = .error (.notANumber place key)) →
      Outcome place key d := .refused _ (.inl rfl)
  cases d with
  | scalar v =>
    cases v with
    | integer i =>
      by_cases hneg : i < 0
      · exact .refused (.negative place key) (.inl rfl) fun s => by simp [put, hlookup, hneg]
      · cases hfinite : (Binary64.ofInt i).isFinite with
        | true =>
          exact .taken _ hk fun s => ⟨s.setNumber k (.ofInt i),
            by simp [put, hlookup, hneg, hfinite], fun k' => get_setNumber s k k' _⟩
        | false =>
          exact .refused .outOfRange (.inr (.number hk (Int.not_lt.mp hneg) hfinite))
            fun s => by simp [put, hlookup, hneg, hfinite]
    | number x =>
      by_cases hneg : x < 0
      · exact .refused (.negative place key) (.inl rfl) fun s => by simp [put, hlookup, hneg]
      · exact .taken _ hk fun s => ⟨s.setNumber k x, by simp [put, hlookup, hneg],
          fun k' => get_setNumber s k k' _⟩
    | _ => exact hrefused fun s => by simp [put, hlookup]
  | _ => exact hrefused fun s => by simp [put, hlookup]

theorem outcome_count (place : String) {k : CountKey} (hk : keyOf key = some (.count k))
    (d : Data) : Outcome place key d := by
  have hlookup : keys.lookup (normalizeKey key) = some (.count k) := hk
  have hrefused : (∀ s : Settings, s.put place key d = .error (.notAnInteger place key)) →
      Outcome place key d := .refused _ (.inl rfl)
  cases d with
  | scalar v =>
    cases v with
    | integer i =>
      by_cases hsmall : i < 1 ∧ k ≠ .precision
      · exact .refused (.tooSmall place key) (.inl rfl) fun s => by simp [put, hlookup, hsmall]
      · exact .taken _ hk fun s => ⟨s.setCount k i, by simp only [put, hlookup, if_neg hsmall],
          fun k' => get_setCount s k k' i⟩
    | _ => exact hrefused fun s => by simp [put, hlookup]
  | _ => exact hrefused fun s => by simp [put, hlookup]

theorem outcome_locale (place : String) (hk : keyOf key = some .locale) (d : Data) :
    Outcome place key d := by
  have hlookup : keys.lookup (normalizeKey key) = some .locale := hk
  have hrefused : (∀ s : Settings, s.put place key d = .error (.unknownLocale place key)) →
      Outcome place key d := .refused _ (.inl rfl)
  cases d with
  | scalar v =>
    cases v with
    | text name =>
      cases hl : NumberLocale.ofName? name with
      | none => exact hrefused fun s => by simp [put, hlookup, hl]
      | some l =>
        have hname : l.name = name := by simpa using List.find?_some hl
        refine .taken _ hk fun s => ⟨{ s with locale := l }, by simp [put, hlookup, hl], ?_⟩
        intro k'
        cases k' with
        | number k' => rfl
        | count k' => rfl
        | locale => rw [if_pos rfl, get, hname]; rfl
    | _ => exact hrefused fun s => by simp [put, hlookup]
  | time t => exact hrefused fun s => by simp [put, hlookup]
  | list items => exact .refused .notAName (.inr (.list hk)) fun s => by simp [put, hlookup]
  | table es => exact .refused .notAName (.inr (.table hk)) fun s => by simp [put, hlookup]

theorem outcome (place key : String) (d : Data) : Outcome place key d := by
  cases hk : keyOf key with
  | none =>
    have hlookup : keys.lookup (normalizeKey key) = none := hk
    exact .refused (.unknownKey place key) (.inl rfl) fun s => by simp [put, hlookup]
  | some k =>
    cases k with
    | number k => exact outcome_number place hk d
    | count k => exact outcome_count place hk d
    | locale => exact outcome_locale place hk d

/-- An entry that is taken sets the setting that its key stands for, and leaves the others. -/
theorem get_put (h : s.put place key d = .ok s') :
    ∃ k, keyOf key = some k ∧
      ∀ k', s'.get k' = if k' = k then entered k d else s.get k' := by
  cases outcome place key d with
  | taken k hk hput =>
    obtain ⟨t, ht, hget⟩ := hput s
    rw [ht] at h
    cases h
    exact ⟨k, hk, hget⟩
  | refused err _ hput =>
    rw [hput] at h
    cases h

/-- Whether an entry is refused does not depend on the settings that it is to be put in. -/
theorem put_error_congr (s' : Settings) (h : s.put place key d = .error err) :
    s'.put place key d = .error err := by
  cases outcome place key d with
  | taken k _ hput =>
    obtain ⟨t, ht, -⟩ := hput s
    rw [ht] at h
    cases h
  | refused err' _ hput =>
    rw [hput] at h ⊢
    exact h

/-- An entry is refused with an error about the configuration unless it breaks the reading. -/
theorem breaks_of_put (h : s.put place key d = .error err) (herr : err.isConfigError = false) :
    Breaks key d err := by
  cases outcome place key d with
  | taken k _ hput =>
    obtain ⟨t, ht, -⟩ := hput s
    rw [ht] at h
    cases h
  | refused err' herr' hput =>
    rw [hput] at h
    cases h
    exact herr'.resolve_left (by simp [herr])

theorem Breaks.put (h : Breaks key d err) (place : String) (s : Settings) :
    s.put place key d = .error err ∧ err.isConfigError = false := by
  cases h with
  | number hk hi hlarge =>
    rw [keyOf] at hk
    simp [Settings.put, hk, hlarge, Int.not_lt.mpr hi, SettingsError.isConfigError]
  | list hk =>
    rw [keyOf] at hk
    simp [Settings.put, hk, SettingsError.isConfigError]
  | table hk =>
    rw [keyOf] at hk
    simp [Settings.put, hk, SettingsError.isConfigError]

/-! ## The entries of a table -/

/-- What the entries give for a setting: the data of the last one whose key stands for it. -/
def lastGiven (k : Key) (es : List (String × Data)) : Option Data :=
  (es.filter fun e => keyOf e.1 = some k).getLast?.map (·.2)

theorem lastGiven_cons (k : Key) (e : String × Data) (es : List (String × Data)) :
    lastGiven k (e :: es) =
      (lastGiven k es).or (if keyOf e.1 = some k then some e.2 else none) := by
  unfold lastGiven
  by_cases he : keyOf e.1 = some k
  · rw [List.filter_cons_of_pos (by simpa using he), if_pos he, List.getLast?_cons]
    cases (es.filter fun e => keyOf e.1 = some k).getLast? <;> rfl
  · rw [List.filter_cons_of_neg (by simpa using he), if_neg he, Option.or_none]

/-- The entries that are all taken leave each setting as the last one of them gives it. -/
theorem get_foldlM (h : es.foldlM (fun s e => s.put place e.1 e.2) s = .ok s') (k : Key) :
    s'.get k = (lastGiven k es).elim (s.get k) (entered k) := by
  induction es generalizing s with
  | nil =>
    cases h
    rfl
  | cons e es ih =>
    rw [List.foldlM_cons] at h
    cases hput : s.put place e.1 e.2 with
    | error err =>
      rw [hput] at h
      cases h
    | ok taken =>
      rw [hput] at h
      obtain ⟨k', hk', hget⟩ := get_put hput
      rw [ih h, hget, lastGiven_cons, hk']
      cases lastGiven k es with
      | some d => rfl
      | none =>
        by_cases hk : k = k'
        · subst hk
          simp
        · simp [hk, Ne.symm hk]

/-- The entry of this key is the first of the table that could be refused: those in front of it
are taken. -/
def Reached (place : String) (es : List (String × Data)) (key : String) (d : Data) : Prop :=
  ∃ front back, es = front ++ (key, d) :: back ∧
    ∀ e ∈ front, ∃ s, ({} : Settings).put place e.1 e.2 = .ok s

theorem foldlM_error_iff (s : Settings) :
    es.foldlM (fun s e => s.put place e.1 e.2) s = .error err ↔
      ∃ key d, Reached place es key d ∧ ({} : Settings).put place key d = .error err := by
  induction es generalizing s with
  | nil =>
    constructor
    · intro h
      cases h
    · rintro ⟨key, d, ⟨front, back, h, -⟩, -⟩
      simp at h
  | cons e es ih =>
    rw [List.foldlM_cons]
    cases hput : s.put place e.1 e.2 with
    | error err' =>
      have hfirst := put_error_congr {} hput
      constructor
      · intro h
        cases h
        exact ⟨e.1, e.2, ⟨[], es, rfl, by simp⟩, hfirst⟩
      · rintro ⟨key, d, ⟨front, back, hes, htaken⟩, hd⟩
        cases front with
        | nil =>
          cases hes
          rw [hfirst] at hd
          exact hd
        | cons e' front =>
          cases hes
          obtain ⟨s', hs'⟩ := htaken e List.mem_cons_self
          rw [hfirst] at hs'
          cases hs'
    | ok taken =>
      obtain ⟨first, hfirst⟩ : ∃ first, ({} : Settings).put place e.1 e.2 = .ok first := by
        cases hfirst : ({} : Settings).put place e.1 e.2 with
        | ok first => exact ⟨first, rfl⟩
        | error err' =>
          rw [put_error_congr s hfirst] at hput
          cases hput
      refine (ih taken).trans ⟨?_, ?_⟩
      · rintro ⟨key, d, ⟨front, back, rfl, htaken⟩, hd⟩
        refine ⟨key, d, ⟨e :: front, back, rfl, ?_⟩, hd⟩
        rintro e' he'
        rcases List.mem_cons.mp he' with rfl | he'
        · exact ⟨first, hfirst⟩
        · exact htaken e' he'
      · rintro ⟨key, d, ⟨front, back, hes, htaken⟩, hd⟩
        cases front with
        | nil =>
          cases hes
          rw [hfirst] at hd
          cases hd
        | cons e' front =>
          cases hes
          exact ⟨key, d, ⟨front, back, rfl, fun e' he' => htaken e' (List.mem_cons_of_mem _ he')⟩,
            hd⟩

/-- The settings are those that the entries mention, each as the last entry for it says, over the
defaults; and they are in range, but for a number that is given as "not a number". -/
structure IsReadFrom (s : Settings) (es : List (String × Data)) : Prop where
  get (k : Key) : s.get k = (lastGiven k es).elim (({} : Settings).get k) (entered k)
  number (k : NumberKey) :
    0 ≤ s.getNumber k ↔ lastGiven (.number k) es ≠ some (.scalar (.number .nan))
  count (k : CountKey) : k ≠ .precision → 1 ≤ s.getCount k
  locale : NumberLocale.ofName? s.locale.name = some s.locale

/-- Only "not a number" itself makes a setting "not a number". -/
theorem entered_number_eq_nan {k : NumberKey} :
    entered (.number k) d = .number .nan ↔ d = .scalar (.number .nan) := by
  cases d with
  | scalar v =>
    cases v with
    | integer i => simp [entered, Binary64.ofInt_ne_nan]
    | _ => simp [entered]
  | _ => simp [entered]

theorem isReadFrom_of_ofEntries (h : ofEntries place es = .ok s) : s.IsReadFrom es := by
  have hget := get_foldlM h
  have hrange := inRange_of_ofEntries h
  refine ⟨hget, fun k => ?_, hrange.counts, ?_⟩
  · have hk : Value.number (s.getNumber k) = _ := hget (.number k)
    have hdefault : ({} : Settings).getNumber k ≠ .nan := by cases k <;> decide +kernel
    rw [Binary64.zero_le_iff (hrange.numbers k), Ne, ← Value.number.injEq, hk]
    cases lastGiven (.number k) es with
    | none => simpa [get] using hdefault
    | some d => simpa using entered_number_eq_nan.not
  · cases s.locale <;> decide

/-! ## A document -/

/-- The entries that a document has for settings; none where it says nothing. -/
def sectionEntries (document : List (String × Data)) : List (String × Data) :=
  match ((Data.table document).get? "tool").bind (·.get? "livecompute") with
  | some (.table es) => es
  | _ => []

theorem not_reached_nil : ¬ Reached place [] key d := by
  rintro ⟨front, back, h, -⟩
  simp at h

/-- The tools of a document are there, and they are no table. -/
def BadTools (document : List (String × Data)) : Prop :=
  ∃ d, document.lookup "tool" = some d ∧ d.entries? = none

/-- A document with tools that are no table is refused for that, and in any other the section is
refused when it is no table, and read by its entries when it is one. -/
theorem ofProject_cases (document : List (String × Data)) :
    (BadTools document ∧ sectionEntries document = [] ∧
        ofProject (.table document) = .error .noSection) ∨
      (¬ BadTools document ∧ sectionEntries document = [] ∧
        ofProject (.table document) = .error (.notATable projectPlace)) ∨
      (¬ BadTools document ∧
        ofProject (.table document) = ofEntries projectPlace (sectionEntries document)) := by
  have hdocument : (Data.table document).get? "tool" = document.lookup "tool" := rfl
  unfold BadTools sectionEntries ofProject
  rw [hdocument]
  cases document.lookup "tool" with
  | none => exact .inr (.inr ⟨by simp, rfl⟩)
  | some tool =>
    cases htool : tool.entries? with
    | none => exact .inl ⟨⟨tool, rfl, htool⟩, by simp [Data.get?, htool], by simp [htool]⟩
    | some es =>
      have hgood : ¬ ∃ d, some tool = some d ∧ d.entries? = none := by
        rintro ⟨d, hd, hnone⟩
        cases hd
        rw [htool] at hnone
        cases hnone
      right
      cases hsection : es.lookup "livecompute" with
      | none => exact .inr ⟨hgood, by simp [Data.get?, htool, hsection, ofEntries]; rfl⟩
      | some d =>
        cases d with
        | table es' => exact .inr ⟨hgood, by simp [Data.get?, htool, hsection]⟩
        | _ => exact .inl ⟨hgood, by simp [Data.get?, htool, hsection], by simp [htool, hsection]⟩

/-- Reading a document fails without an error about the configuration: the tools are no table, or
the first entry that is not taken breaks the reading. -/
def Fails (document : List (String × Data)) (err : SettingsError) : Prop :=
  (BadTools document ∧ err = .noSection) ∨
    ∃ key d, Reached projectPlace (sectionEntries document) key d ∧ Breaks key d err

/-- Where no settings are mentioned only the tools can be at fault. -/
theorem fails_iff_of_nil {document : List (String × Data)} (h : sectionEntries document = []) :
    Fails document err ↔ BadTools document ∧ err = .noSection := by
  rw [Fails, h]
  exact or_iff_left fun ⟨_, _, hreached, _⟩ => not_reached_nil hreached

/-- The reading of entries fails without an error about the configuration when the first entry that
is not taken breaks it. -/
theorem ofEntries_error_iff :
    (ofEntries place es = .error err ∧ err.isConfigError = false) ↔
      ∃ key d, Reached place es key d ∧ Breaks key d err := by
  rw [ofEntries, foldlM_error_iff]
  constructor
  · rintro ⟨⟨key, d, hreached, hput⟩, herr⟩
    exact ⟨key, d, hreached, breaks_of_put hput herr⟩
  · rintro ⟨key, d, hreached, hbreaks⟩
    have hput := hbreaks.put place {}
    exact ⟨⟨key, d, hreached, hput.1⟩, hput.2⟩

/-- A document is read as settings that are in range but for a "not a number", with defaults where
it says nothing, or it is refused with an error about the configuration, or it is one of those on
which reading fails. -/
theorem ofProject_outcome (document : List (String × Data)) :
    (∀ s, ofProject (.table document) = .ok s → s.IsReadFrom (sectionEntries document)) ∧
      ∀ err, (ofProject (.table document) = .error err ∧ err.isConfigError = false) ↔
        Fails document err := by
  rcases ofProject_cases document with ⟨hbad, hnone, h⟩ | ⟨hgood, hnone, h⟩ | ⟨hgood, h⟩
  · refine ⟨by simp [h], fun err => ?_⟩
    rw [h, fails_iff_of_nil hnone]
    constructor
    · rintro ⟨⟨⟩, -⟩
      exact ⟨hbad, rfl⟩
    · rintro ⟨-, rfl⟩
      exact ⟨rfl, rfl⟩
  · refine ⟨by simp [h], fun err => ?_⟩
    rw [h, fails_iff_of_nil hnone]
    refine iff_of_false ?_ fun hbad => hgood hbad.1
    rintro ⟨⟨⟩, hconfig⟩
    cases hconfig
  · rw [h]
    refine ⟨fun s hs => isReadFrom_of_ofEntries hs, fun err => ?_⟩
    rw [ofEntries_error_iff, Fails, or_iff_right (fun hbad => hgood hbad.1)]

/-- A document with these entries for settings and nothing else. -/
def sectionOnly (es : List (String × Data)) : List (String × Data) :=
  [("tool", .table [("livecompute", .table es)])]

theorem ofProject_sectionOnly (es : List (String × Data)) :
    ofProject (.table (sectionOnly es)) = ofEntries projectPlace es := rfl

/-- An integer of four hundred digits and one. -/
def hugeInteger : Int := .ofNat (Nat.pow 10 400)

/-- A tolerance that is "not a number" is taken; and tools that are a number, a locale that is a
list and a tolerance of that many digits all make the reading fail in other ways. -/
theorem ofProject_unchecked :
    (∃ s, ofProject (.table (sectionOnly [("tolerance", .scalar (.number .nan))])) = .ok s ∧
        ¬ 0 ≤ s.tolerance) ∧
      ofProject (.table [("tool", .scalar (.integer 1))]) = .error .noSection ∧
      ofProject (.table (sectionOnly [("locale", .list [])])) = .error .notAName ∧
      ofProject (.table (sectionOnly [("tolerance", .scalar (.integer hugeInteger))])) =
        .error .outOfRange := by
  have hkey : keyOf "tolerance" = some (.number .tolerance) := by decide +kernel
  have hnan : ({} : Settings).put projectPlace "tolerance" (.scalar (.number .nan)) =
      .ok (setNumber {} .tolerance .nan) := by
    have hnotNegative : ¬ Binary64.nan < 0 := by decide +kernel
    rw [keyOf] at hkey
    simp only [put, hkey, if_neg hnotNegative]
  have hlarge : (Binary64.ofInt hugeInteger).isFinite = false := by decide +kernel
  refine ⟨⟨setNumber {} .tolerance .nan, ?_, by decide +kernel⟩, rfl, ?_, ?_⟩
  · rw [ofProject_sectionOnly, ofEntries, List.foldlM_cons, hnan]
    rfl
  · rw [ofProject_sectionOnly, ofEntries, List.foldlM_cons,
      ((Breaks.list (by decide +kernel)).put projectPlace {}).1]
    rfl
  · rw [ofProject_sectionOnly, ofEntries, List.foldlM_cons,
      ((Breaks.number hkey (by decide +kernel) hlarge).put projectPlace {}).1]
    rfl

end LiveForm.Settings
