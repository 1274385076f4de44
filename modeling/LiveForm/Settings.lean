import LiveForm.Data
import LiveForm.Value.Locale

/-!
# Settings

The tunables of the engine, and reading them from the entries of a table.  Each entry must have a
known key and a value in range; the first one that has not is the error.
-/

namespace LiveForm

/-- The tunables of the engine. -/
structure Settings where
  /-- Numbers closer than this are the same. -/
  tolerance : Binary64 := .ofDecimal false 1 (-4)
  /-- Numbers closer than this, relative to the larger one, are the same. -/
  relativeTolerance : Binary64 := .ofDecimal false 1 (-6)
  /-- Values remembered for each node. -/
  historySize : Int := 10
  /-- Updates processed before the queue yields. -/
  batchSize : Int := 20
  /-- Updates that may wait. -/
  maxQueue : Int := 500
  /-- Evaluations of a node in one cycle. -/
  maxPasses : Int := 3
  /-- Places to which results are rounded. -/
  precision : Int := 5
  /-- Seconds that an edit rests before it is handled. -/
  immediateDelay : Binary64 := .ofDecimal false 3 (-2)
  /-- Seconds that other changes rest before they are handled. -/
  settleDelay : Binary64 := .ofDecimal false 1 (-1)
  /-- Seconds after an edit by hand in which a field is left alone. -/
  editCooldown : Binary64 := .ofDecimal false 5 (-1)
  locale : NumberLocale := .id

namespace Settings

/-- A tunable that is a number of seconds or a tolerance. -/
inductive NumberKey where
  | tolerance
  | relativeTolerance
  | immediateDelay
  | settleDelay
  | editCooldown
  deriving DecidableEq, Repr

/-- A tunable that is a count. -/
inductive CountKey where
  | historySize
  | batchSize
  | maxQueue
  | maxPasses
  | precision
  deriving DecidableEq, Repr

/-- A tunable. -/
inductive Key where
  | number (k : NumberKey)
  | count (k : CountKey)
  | locale
  deriving DecidableEq, Repr

/-- The keys with their names, in the order in which settings are listed. -/
def keys : List (String × Key) :=
  [("tolerance", .number .tolerance), ("relative_tolerance", .number .relativeTolerance),
    ("history_size", .count .historySize), ("batch_size", .count .batchSize),
    ("max_queue", .count .maxQueue), ("max_passes", .count .maxPasses),
    ("precision", .count .precision), ("immediate_delay", .number .immediateDelay),
    ("settle_delay", .number .settleDelay), ("edit_cooldown", .number .editCooldown),
    ("locale", .locale)]

def getNumber (s : Settings) : NumberKey → Binary64
  | .tolerance => s.tolerance
  | .relativeTolerance => s.relativeTolerance
  | .immediateDelay => s.immediateDelay
  | .settleDelay => s.settleDelay
  | .editCooldown => s.editCooldown

def setNumber (s : Settings) (k : NumberKey) (x : Binary64) : Settings :=
  match k with
  | .tolerance => { s with tolerance := x }
  | .relativeTolerance => { s with relativeTolerance := x }
  | .immediateDelay => { s with immediateDelay := x }
  | .settleDelay => { s with settleDelay := x }
  | .editCooldown => { s with editCooldown := x }

def getCount (s : Settings) : CountKey → Int
  | .historySize => s.historySize
  | .batchSize => s.batchSize
  | .maxQueue => s.maxQueue
  | .maxPasses => s.maxPasses
  | .precision => s.precision

def setCount (s : Settings) (k : CountKey) (i : Int) : Settings :=
  match k with
  | .historySize => { s with historySize := i }
  | .batchSize => { s with batchSize := i }
  | .maxQueue => { s with maxQueue := i }
  | .maxPasses => { s with maxPasses := i }
  | .precision => { s with precision := i }

/-- A setting as data. -/
def get (s : Settings) : Key → Value
  | .number k => .number (s.getNumber k)
  | .count k => .integer (s.getCount k)
  | .locale => .text s.locale.name

/-- All settings with their names, in order. -/
def entries (s : Settings) : List (String × Value) := keys.map fun p => (p.1, s.get p.2)

/-! ## Reading -/

end Settings

/-- Why settings cannot be read. -/
inductive SettingsError where
  | unknownKey (place key : String)
  | notANumber (place key : String)
  | negative (place key : String)
  | notAnInteger (place key : String)
  | tooSmall (place key : String)
  | unknownLocale (place key : String)
  /-- The section is there but no table. -/
  | notATable (place : String)
  /-- The file is not in the format of configuration files. -/
  | unreadable
  /-- The file holds an integer that is too long to be read. -/
  | tooManyDigits
  /-- An integer out of the range of numbers. -/
  | outOfRange
  /-- A list or table in the place of a name. -/
  | notAName
  /-- What holds the section is no table. -/
  | noSection
  deriving DecidableEq, Repr

namespace SettingsError

/-- The wording of an error, for those that have one. -/
def message? : SettingsError → Option String
  | unknownKey s k => some ("Unknown key in " ++ s ++ ": '" ++ k ++ "'")
  | notANumber s k => some ("Invalid " ++ s ++ "." ++ k ++ ": expected number")
  | negative s k => some ("Invalid " ++ s ++ "." ++ k ++ ": must not be negative")
  | notAnInteger s k => some ("Invalid " ++ s ++ "." ++ k ++ ": expected integer")
  | tooSmall s k => some ("Invalid " ++ s ++ "." ++ k ++ ": must be at least 1")
  | unknownLocale s k =>
    some ("Invalid " ++ s ++ "." ++ k ++ ": expected one of " ++ NumberLocale.knownNames)
  | notATable s => some ("Invalid " ++ s ++ ": expected a table")
  | _ => none

/-- The errors that say that the configuration is bad; the others are failures of reading it. -/
def isConfigError : SettingsError → Bool
  | outOfRange | notAName | noSection | tooManyDigits => false
  | _ => true

end SettingsError

namespace Settings

/-- A key as it is written in settings: hyphens count as underscores. -/
def normalizeKey (key : String) : String :=
  .ofList (key.toList.map fun c => if c == '-' then '_' else c)

/-- The settings with one entry of a table put in. -/
def put (place key : String) (d : Data) (s : Settings) : Except SettingsError Settings :=
  match keys.lookup (normalizeKey key) with
  | none => .error (.unknownKey place key)
  | some (.number k) =>
    match d with
    | .scalar (.integer i) =>
      if i < 0 then .error (.negative place key)
      else
        let x := Binary64.ofInt i
        if x.isFinite then .ok (s.setNumber k x) else .error .outOfRange
    | .scalar (.number x) =>
      if x < 0 then .error (.negative place key) else .ok (s.setNumber k x)
    | _ => .error (.notANumber place key)
  | some (.count k) =>
    match d with
    | .scalar (.integer i) =>
      if i < 1 ∧ k ≠ .precision then .error (.tooSmall place key) else .ok (s.setCount k i)
    | _ => .error (.notAnInteger place key)
  | some .locale =>
    match d with
    | .scalar (.text name) =>
      match NumberLocale.ofName? name with
      | some l => .ok { s with locale := l }
      | none => .error (.unknownLocale place key)
    | .list _ | .table _ => .error .notAName
    | _ => .error (.unknownLocale place key)

/-- The settings that the entries of a table make; those that it does not mention have their
defaults. -/
def ofEntries (place : String) (es : List (String × Data)) : Except SettingsError Settings :=
  es.foldlM (fun s e => s.put place e.1 e.2) {}

/-- The section of a project's configuration that holds the settings. -/
def projectPlace : String := "[tool.livecompute]"

/-- The settings in the configuration of a project; defaults where it says nothing. -/
def ofProject (d : Data) : Except SettingsError Settings :=
  match d.get? "tool" with
  | none => .ok {}
  | some tool =>
    match tool.entries? with
    | none => .error .noSection
    | some es =>
      match es.lookup "livecompute" with
      | none => .ok {}
      | some (.table es) => ofEntries projectPlace es
      | some _ => .error (.notATable projectPlace)

/-- The entries of one table layered over those of another: a key of both keeps its place and
takes the new value. -/
def layer (base upper : List (String × Data)) : List (String × Data) :=
  upper.foldl (fun acc e =>
    if acc.any (·.1 == e.1) then acc.map fun p => if p.1 == e.1 then e else p
    else acc ++ [e]) base

/-- Settings with the entries of a form layered over them. -/
def override (base : Settings) (es : List (String × Data)) : Except SettingsError Settings :=
  if es.isEmpty then .ok base
  else
    ofEntries "[settings]" (layer (base.entries.map fun p => (p.1, .scalar p.2))
      (es.map fun p => (normalizeKey p.1, p.2)))

end Settings

end LiveForm
