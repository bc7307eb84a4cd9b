import PageEngine.Settings.Document.Basic
import PageEngine.Settings.Environment

/-! Settings of an engine. They come from up to three documents and the environment; each
source is laid over those before it, and what none of them says has a standard value. -/

namespace PageEngine

structure Settings where
  debug : Bool := false
  /-- What is logged unless said otherwise. -/
  logLevel : String := "info"
  /-- The directory for log files, if logs go to files. -/
  logDirectory : Option String := none
  /-- How many pages a session keeps. -/
  pageCacheSize : Nat := 100
  /-- The directories searched for templates, in order. -/
  templateDirectories : List String := []
  /-- The seconds a session may be left alone. -/
  sessionTimeout : Nat := 3600
  deriving DecidableEq, Repr

/-- Why there are no settings. -/
inductive SettingsError where
  /-- A document is malformed, or a value cannot be understood as its setting. -/
  | malformed
  | noPages
  deriving DecidableEq, Repr

def SettingsError.message : SettingsError → String
  | .malformed => "Configuration build/deserialize error"
  | .noPages => "page_cache_size must be at least 1"

/-- Where settings come from: the documents of the user and of the project, the hidden one
first, and assignments to environment variables. -/
structure SettingsSources where
  user : Option String
  hidden : Option String
  project : Option String
  environment : List (String × String)

namespace SettingsSources

/-- The layers of the sources, the lowest first. -/
def layers? (sources : SettingsSources) : Option (List Layer) := do
  let documents ← [sources.user, sources.hidden, sources.project].reduceOption.mapM Document.read
  return documents ++ [Environment.layer sources.environment]

end SettingsSources

namespace Settings

/-- What an entry is understood as, or the standard value if there is no entry. -/
def entryOr {α : Type} (layer : Layer) (key : String) (read : Datum → Option α)
    (standard : α) : Option α :=
  match Dictionary.get? key layer with
  | none => some standard
  | some d => read d

/-- Understand the entries of a layer as settings; other entries do not matter. -/
def ofLayer? (layer : Layer) : Option Settings := do
  let standard : Settings := {}
  let debug ← entryOr layer "debug" Datum.truth? standard.debug
  let logLevel ← entryOr layer "log_level" Datum.text? standard.logLevel
  let logDirectory ← entryOr layer "log_dir" (·.text?.map some) standard.logDirectory
  let pageCacheSize ← entryOr layer "page_cache_size" Datum.count? standard.pageCacheSize
  let templateDirectories ←
    entryOr layer Environment.listEntry Datum.texts? standard.templateDirectories
  let sessionTimeout ←
    entryOr layer "session_timeout_secs" Datum.count? standard.sessionTimeout
  return { debug, logLevel, logDirectory, pageCacheSize, templateDirectories, sessionTimeout }

/-- The settings that some sources make. -/
def load (sources : SettingsSources) : Except SettingsError Settings :=
  match sources.layers?.bind fun layers => ofLayer? (Layer.stack layers) with
  | none => .error .malformed
  | some settings => if settings.pageCacheSize = 0 then .error .noPages else .ok settings

/-- Loaded settings always leave room for a page. -/
theorem pageCacheSize_pos_of_load {sources : SettingsSources} {settings : Settings}
    (h : load sources = .ok settings) : 0 < settings.pageCacheSize := by
  unfold load at h
  split at h
  · simp at h
  · split at h
    · simp at h
    · rename_i hne
      cases h
      exact Nat.pos_of_ne_zero hne

end Settings

end PageEngine
