/-
# `LightningNode.Node.EnvFile` — the `.env` file read back

`parse_env_file` on a file of `key=value` lines.  A line ends in a line feed, or
in a carriage return and a line feed, and the last one need not end at all.  The
first `=` of a line is the separator, so a value may have others.

    a key twice           the later value
    a line without `=`    no map, whatever the lines before it say
-/
import LightningNode.Node.StartupArgs

namespace LightningNode

open Conc Text

namespace StartupArgs

inductive LineEnd where
  | lf
  | crlf

def LineEnd.text : LineEnd → String
  | .lf => "\n"
  | .crlf => "\r\n"

/-- A pair that fits on a line. -/
structure EnvPair where
  key : String
  value : String
  key_eq : '=' ∉ key.toList
  key_lf : '\n' ∉ key.toList
  value_lf : '\n' ∉ value.toList
  value_cr : value.toList.getLast? ≠ some '\r'

namespace EnvPair

variable (p : EnvPair)

def entry : String × String := (p.key, p.value)

def line : String := EnvFile.line p.entry

theorem line_lf : '\n' ∉ p.line.toList := by
  simp [line, EnvFile.line, entry, p.key_lf, p.value_lf]

/-- The line ends as the value does, or in the separator. -/
theorem line_cr : p.line.toList.getLast? ≠ some '\r' := by
  have hl : p.line.toList = p.key.toList ++ ('=' :: p.value.toList) := by
    simp [line, EnvFile.line, entry]
  rw [hl, List.getLast?_append, List.getLast?_cons]
  cases hv : p.value.toList.getLast? with
  | none => simp
  | some c =>
      have hc := p.value_cr
      rw [hv] at hc
      simpa using hc

theorem line_ne : p.line ≠ "" := by
  intro h
  have hl := congrArg String.toList h
  simp [line, EnvFile.line] at hl

/-- The value of the last pair with the key. -/
def lastValue (pairs : List EnvPair) (key : String) : Option String :=
  ((pairs.map entry).reverse.find? (·.1 = key)).map (·.2)

/-- The pairs as lines with their ends, and one more without. -/
def render : List (EnvPair × LineEnd) → Option EnvPair → String
  | [], none => ""
  | [], some p => p.line
  | (p, e) :: ps, last => p.line ++ e.text ++ render ps last

theorem lines_render (ps : List (EnvPair × LineEnd)) (last : Option EnvPair) :
    lines (render ps last) = (ps.map Prod.fst ++ last.toList).map line := by
  induction ps with
  | nil =>
      cases last with
      | none => exact lines_empty
      | some p => exact lines_last p.line_lf p.line_ne
  | cons pe ps ih =>
      obtain ⟨p, e⟩ := pe
      cases e with
      | lf => exact (lines_lf p.line_lf p.line_cr).trans (congrArg _ ih)
      | crlf => exact (lines_crlf p.line_lf).trans (congrArg _ ih)

end EnvPair

/-- A line without separator ends the loop with nothing, wherever it stands. -/
theorem parseEnvLines_none {line : String} (hline : '=' ∉ line.toList) {ls : List String}
    (hl : line ∈ ls) (map : String → Option String) : parseEnvLines ls map = none := by
  induction ls generalizing map with
  | nil => exact absurd hl List.not_mem_nil
  | cons l ls ih =>
      unfold parseEnvLines
      obtain rfl | hl := List.mem_cons.mp hl
      · rw [splitn2_one hline]
      · split
        · exact ih hl _
        · rfl

/-- `parse_env_file` reads back what was rendered, and gives no map at all for a
file that has a line without `=`. -/
theorem env_file_read_back {env : Env} {envFileName : Option String} {text : String}
    (hfile : env.readToString (envFileName.getD ".env") = some text) :
    (∀ ps last, text = EnvPair.render ps last → ∃ map, parseEnvFile env envFileName = some map ∧
      ∀ key, map key = EnvPair.lastValue (ps.map Prod.fst ++ last.toList) key) ∧
    ((∃ line ∈ lines text, '=' ∉ line.toList) → parseEnvFile env envFileName = none) := by
  have hparse : parseEnvFile env envFileName = parseEnvLines (lines text) fun _ => none := by
    rw [parseEnvFile, hfile]
    rfl
  rw [hparse]
  constructor
  · rintro ps last rfl
    let pairs := ps.map Prod.fst ++ last.toList
    have hlines : lines (EnvPair.render ps last) = (pairs.map EnvPair.entry).map EnvFile.line := by
      rw [EnvPair.lines_render, List.map_map]
      rfl
    have hkeys : ∀ e ∈ pairs.map EnvPair.entry, '=' ∉ e.1.toList := by
      rintro e he
      obtain ⟨p, _, rfl⟩ := List.mem_map.mp he
      exact p.key_eq
    rw [hlines, parseEnvLines_entries _ _ hkeys]
    exact ⟨_, rfl, fun key => Option.or_none⟩
  · rintro ⟨line, hl, hline⟩
    exact parseEnvLines_none hline hl _

/-- A key of the tests given twice, and both kinds of line end. -/
def testEnvPairs : List (EnvPair × LineEnd) :=
  [(⟨"RPC_USER", "user", by decide, by decide, by decide, by decide⟩, .crlf),
    (⟨"RPC_PASSWORD", "pass=word", by decide, by decide, by decide, by decide⟩, .lf)]

def testEnvLast : EnvPair :=
  ⟨"RPC_USER", "testuser", by decide, by decide, by decide, by decide⟩

/-- The environment with this one file, whatever it is called. -/
def Env.ofFile (text : String) : Env := ⟨fun _ => none, none, fun _ => some text⟩

theorem env_file_read_back_twice : ∃ map,
    parseEnvFile (.ofFile "RPC_USER=user\r\nRPC_PASSWORD=pass=word\nRPC_USER=testuser") none =
        some map ∧
      map "RPC_USER" = some "testuser" ∧ map "RPC_PASSWORD" = some "pass=word" := by
  have hfile : (Env.ofFile
      "RPC_USER=user\r\nRPC_PASSWORD=pass=word\nRPC_USER=testuser").readToString
        ((none : Option String).getD ".env") = some _ := rfl
  obtain ⟨map, hmap, hvalue⟩ :=
    (env_file_read_back hfile).1 testEnvPairs (some testEnvLast) (by decide)
  exact ⟨map, hmap, (hvalue _).trans (by decide), (hvalue _).trans (by decide)⟩

end StartupArgs

end LightningNode
