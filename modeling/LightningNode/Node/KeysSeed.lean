/-
# `LightningNode.Node.KeysSeed` — the seed all keys are derived from

The step of `start_ldk` that reads `keys_seed`, or makes one:

    fs::read                          any error counts as: no seed yet
    fill_bytes, File::create          the file is empty from here
    write_all                         one byte after another
    sync_all

A start that gets past the step has a seed; what it had is kept as history.  A
crash can fall between any two actions, and another start follows.  It ends the
process and leaves the file as it is: written bytes are not lost, whether they
are synced or not, so that a loss of power is not among the crashes here.
-/
import LightningNode.HexUtils
import LightningNode.Lib.Disk
import LightningNode.Lib.Solo

namespace LightningNode

open Conc

/-- `[u8; 32]` -/
structure Seed where
  bytes : Bytes
  length : bytes.length = 32

namespace KeysSeed

/-! ## The step -/

inductive SeedAct where
  /-- `fs::read(keys_seed_path)` -/
  | read
  /-- `thread_rng().fill_bytes(&mut key)` -/
  | fillBytes
  /-- `File::create(keys_seed_path)` -/
  | create
  /-- one byte of `write_all(&mut f, &key)` -/
  | append (byte : UInt8)
  /-- `f.sync_all()` -/
  | syncAll

abbrev SeedAct.Answer : SeedAct → Type
  | .read => Except ErrorKind Bytes
  | .fillBytes => Seed
  | _ => Bool

abbrev SeedProg := Prog SeedAct SeedAct.Answer

/-- How a start leaves the step: past it with a key, returning, or in a panic. -/
inductive SeedResult where
  | seed (key : Seed)
  | returned
  | panicked

def writeAll : Bytes → SeedProg Bool
  | [] => .ret true
  | byte :: bytes => .act (.append byte) fun
      | true => writeAll bytes
      | false => .ret false

/-- `let keys_seed = ..` of `start_ldk`. -/
def keysSeed : SeedProg SeedResult :=
  .act .read fun
    | .ok seed => .ret (if h : seed.length = 32 then .seed ⟨seed, h⟩ else .panicked)
    | .error _ =>
        .act .fillBytes fun key =>
        .act .create fun
          | false => .ret .returned
          | true => do
              match ← writeAll key.bytes with
              | false => return .panicked
              | true => .act .syncAll fun
                  | false => .ret .panicked
                  | true => .ret (.seed key)

/-! ## Starts -/

/-- The file, and the seeds of the starts that got past the step, last one
first. -/
structure SeedFile where
  file : Option Bytes
  seeds : List Seed

def Exec : (a : SeedAct) → SeedFile → a.Answer → SeedFile → Prop
  | .read, s, r, s' => s' = s ∧ ∀ bytes, r = .ok bytes → s.file = some bytes
  | .fillBytes, s, _, s' => s' = s
  | .create, s, r, s' => (r = false ∧ s' = s) ∨ (r = true ∧ s' = { s with file := some [] })
  | .append byte, s, r, s' =>
      (r = false ∧ s' = s) ∨ (r = true ∧ s' = { s with file := s.file.map (· ++ [byte]) })
  | .syncAll, s, _, s' => s' = s

/-- One start after another; a crash comes where `cut` allows it. -/
def starts (cut : Option Bytes → Prop) : System Unit SeedAct SeedAct.Answer SeedResult SeedFile where
  exec _ := Exec
  start _ s p s' := p = keysSeed ∧ s' = s
  finish _ x s s' :=
    match x with
    | .seed key => s' = { s with seeds := key :: s.seeds }
    | .returned | .panicked => s' = s
  env _ _ := False
  crash s s' := cut s.file ∧ s' = s

/-- A file the next start can use: missing, or with 32 bytes. -/
def Usable (file : Option Bytes) : Prop := ∀ bytes, file = some bytes → bytes.length = 32

/-- A file that is there is read. -/
def Reads (_ : Unit) : (a : SeedAct) → SeedFile → a.Answer → Prop
  | .read, s, .error _ => s.file = none
  | _, _, _ => True

/-- A file that is there is read, and a byte that is written gets there. -/
def Sound (t : Unit) : (a : SeedAct) → SeedFile → a.Answer → Prop
  | .append _, _, r => r = true
  | a, s, r => Reads t a s r

/-- Starts in which nothing happens that can cost the seed. -/
def soundStarts : System Unit SeedAct SeedAct.Answer SeedResult SeedFile :=
  (starts Usable).onlyIf Sound

/-! ## What a start keeps -/

/-- Every start so far had the seed in the file. -/
def Kept (s : SeedFile) : Prop := ∀ key ∈ s.seeds, s.file = some key.bytes

theorem Kept.seeds_eq_nil {s : SeedFile} (h : Kept s) (hf : s.file = none) : s.seeds = [] := by
  apply List.eq_nil_iff_forall_not_mem.mpr
  intro key hkey
  have hsome := h key hkey
  rw [hf] at hsome
  exact nomatch hsome

/-- What holds when a start leaves the step. -/
def Left (x : SeedResult) (s : SeedFile) : Prop :=
  Usable s.file ∧ ∀ key, x = .seed key → s.file = some key.bytes

/-- The file under way: `done` is in it, and no start has used a seed yet. -/
def Writing (done : Bytes) (s : SeedFile) : Prop := s.file = some done ∧ s.seeds = []

theorem Writing.kept {done : Bytes} {s : SeedFile} (h : Writing done s) : Kept s := by
  intro key hkey
  rw [h.2] at hkey
  exact nomatch hkey

theorem writeAll_rule : ∀ (bytes done : Bytes),
    (Discipline.solo soundStarts Kept).Triple () (Writing done) (writeAll bytes)
      fun r s => r = true ∧ Writing (done ++ bytes) s
  | [], done => .solo_ret fun s _ h => ⟨rfl, by rwa [List.append_nil]⟩
  | byte :: bytes, done => by
      refine .solo (fun r s => r = true ∧ Writing (done ++ [byte]) s) ?_ fun r => ?_
      · rintro s hi hw r s' ⟨⟨rfl, rfl⟩ | ⟨rfl, rfl⟩, hok⟩
        · exact nomatch hok
        · have hw' : Writing (done ++ [byte]) { s with file := s.file.map (· ++ [byte]) } :=
            ⟨by simp [hw.1], hw.2⟩
          exact ⟨hw'.kept, rfl, hw'⟩
      · cases r with
        | false => exact .solo_ret fun s _ h => nomatch h.1
        | true =>
            have ih := writeAll_rule bytes (done ++ [byte])
            rw [List.append_assoc] at ih
            exact ih.weaken fun _ _ h => h.2

theorem keysSeed_rule :
    (Discipline.solo soundStarts Kept).Triple () (fun s => Usable s.file) keysSeed Left := by
  refine .solo (fun r s => Usable s.file ∧ match r with
    | .ok bytes => s.file = some bytes
    | .error _ => s.file = none) ?_ fun r => ?_
  · rintro s hi hu r _ ⟨⟨rfl, hread⟩, hok⟩
    cases r with
    | ok bytes => exact ⟨hi, hu, hread bytes rfl⟩
    | error e => exact ⟨hi, hu, hok⟩
  cases r with
  | ok bytes =>
      refine .solo_ret ?_
      rintro s _ ⟨hu, hf⟩
      refine ⟨hu, ?_⟩
      intro key hkey
      rw [dif_pos (hu bytes hf)] at hkey
      rw [hf, ← SeedResult.seed.inj hkey]
  | error e =>
      refine .solo (fun _ s => s.file = none) ?_ fun key => ?_
      · rintro s hi ⟨_, hf⟩ _ _ ⟨rfl, _⟩
        exact ⟨hi, hf⟩
      refine .solo (fun r s => if r then Writing [] s else s.file = none) ?_ fun r => ?_
      · rintro s hi hf r _ ⟨⟨rfl, rfl⟩ | ⟨rfl, rfl⟩, _⟩
        · exact ⟨hi, hf⟩
        · have hw : Writing [] { s with file := some [] } := ⟨rfl, hi.seeds_eq_nil hf⟩
          exact ⟨hw.kept, hw⟩
      cases r with
      | false =>
          refine .solo_ret ?_
          intro s _ hf
          have hf' : s.file = none := hf
          refine ⟨?_, nofun⟩
          intro bytes hb
          rw [hf'] at hb
          exact nomatch hb
      | true =>
          have hwrite := writeAll_rule key.bytes []
          refine .bind _ hwrite fun r => ?_
          cases r with
          | false => exact .solo_ret fun s _ h => nomatch h.1
          | true =>
              have hleft : ∀ x s, x = SeedResult.panicked ∨ x = .seed key → Writing key.bytes s →
                  Left x s := by
                intro x s hx hw
                refine ⟨?_, ?_⟩
                · intro bytes hb
                  rw [hw.1] at hb
                  exact Option.some.inj hb ▸ key.length
                · rintro key' rfl
                  rcases hx with hx | hx
                  · exact nomatch hx
                  · rw [SeedResult.seed.inj hx, hw.1]
              refine .solo (fun _ => Writing key.bytes) ?_ fun r => ?_
              · rintro s hi ⟨_, hw⟩ r _ ⟨rfl, _⟩
                exact ⟨hi, hw⟩
              cases r with
              | false => exact .solo_ret fun s _ hw => hleft _ s (Or.inl rfl) hw
              | true => exact .solo_ret fun s _ hw => hleft _ s (Or.inr rfl) hw

def outline : Outline soundStarts :=
  .solo soundStarts Kept (fun s => Usable s.file) Left
    (by
      rintro s p s' ⟨hp, hs'⟩ hi hu
      rw [hp, hs']
      exact ⟨hi, keysSeed_rule s hi hu⟩)
    (by
      intro x s s' hf hi ⟨hu, hleft⟩
      cases x with
      | seed key =>
          subst hf
          refine ⟨?_, hu⟩
          intro key' hkey'
          have hkey := hleft key rfl
          rcases List.mem_cons.mp hkey' with rfl | h
          · exact hkey
          · exact hi key' h
      | returned | panicked =>
          subst hf
          exact ⟨hi, hu⟩)
    (fun h => h)
    (by
      rintro s s' ⟨hcut, hs'⟩ hi
      rw [hs']
      exact ⟨hi, hcut⟩)

/-! ## Runs -/

/-- Every action does what it is called for, unless the file cannot be read; the
bytes filled in are all `byte`. -/
def answering (readable : Bool) (byte : UInt8) :
    (a : SeedAct) → SeedFile → Option (a.Answer × SeedFile)
  | .read, s => some (if readable then s.file.elim (.error .notFound) .ok else .error .other, s)
  | .fillBytes, s => some (⟨.replicate 32 byte, List.length_replicate⟩, s)
  | .create, s => some (true, { s with file := some [] })
  | .append byte, s => some (true, { s with file := s.file.map (· ++ [byte]) })
  | .syncAll, s => some (true, s)

theorem answering_exec {readable : Bool} {byte : UInt8} (a : SeedAct) (s : SeedFile)
    (r : a.Answer) (s' : SeedFile) (h : answering readable byte a s = some (r, s')) :
    Exec a s r s' ∧ (readable = true → Sound () a s r) := by
  cases a with
  | read =>
      cases h
      cases readable with
      | false => exact ⟨⟨rfl, nofun⟩, nofun⟩
      | true =>
          cases hf : s.file with
          | none => exact ⟨⟨rfl, nofun⟩, fun _ => hf⟩
          | some bytes => exact ⟨⟨rfl, fun _ hb => Except.ok.inj hb ▸ hf⟩, fun _ => trivial⟩
  | append byte =>
      cases h
      exact ⟨Or.inr ⟨rfl, rfl⟩, fun _ => rfl⟩
  | create =>
      cases h
      exact ⟨Or.inr ⟨rfl, rfl⟩, fun _ => trivial⟩
  | fillBytes | syncAll =>
      cases h
      exact ⟨rfl, fun _ => trivial⟩

/-- A start that finds a usable file, and nothing goes wrong. -/
theorem reach_seed {s : SeedFile} (hu : Usable s.file) :
    ∃ key s', s'.seeds = key :: s.seeds ∧ Usable s'.file ∧
      soundStarts.Reach (.idle s) (.idle s') := by
  have hrun : ∃ key s₁, s₁.seeds = s.seeds ∧ Usable s₁.file ∧
      run (answering true 0) keysSeed s = some (.seed key, s₁) := by
    cases s with
    | mk file seeds =>
        cases file with
        | none =>
            refine ⟨⟨.replicate 32 0, List.length_replicate⟩, ⟨some (.replicate 32 0), seeds⟩,
              rfl, ?_, rfl⟩
            rintro _ ⟨rfl⟩
            exact List.length_replicate
        | some bytes =>
            have hlen := hu bytes rfl
            refine ⟨⟨bytes, hlen⟩, ⟨some bytes, seeds⟩, rfl, hu, ?_⟩
            simp [keysSeed, run, answering, hlen]
  obtain ⟨key, s₁, hs₁, hu₁, hrun⟩ := hrun
  refine ⟨key, { s₁ with seeds := key :: s₁.seeds }, by rw [hs₁], hu₁, ?_⟩
  refine System.reach_call (t := ()) ?_ ⟨rfl, rfl⟩ hrun rfl
  intro a s r s' h
  obtain ⟨he, hok⟩ := answering_exec a s r s' h
  exact ⟨he, hok rfl⟩

end KeysSeed

open KeysSeed in
/-- In every run of starts in which a file that is there is read, no byte fails
to be written and no crash leaves part of a seed: a seed once used is in the file
and is the seed of all starts, and when no start is under way one can get past
the step. -/
theorem seed_kept {s : SeedFile} (hs : s.seeds = []) (hu : Usable s.file)
    {c : Config Unit SeedAct SeedAct.Answer SeedResult SeedFile}
    (h : soundStarts.Reach (.idle s) c) :
    (∀ key ∈ c.state.seeds, c.state.file = some key.bytes) ∧
    (c.task () = none →
      soundStarts.Can c fun c' => ∃ key, c'.state.seeds = key :: c.state.seeds) := by
  have hinit : outline.Inv (.idle s) := by
    refine .init _ ?_ fun _ => hu
    intro key hkey
    rw [hs] at hkey
    exact nomatch hkey
  have hc := (hinit.reach _ h).1
  refine ⟨hc.state, ?_⟩
  intro hidle
  have hu' : Usable c.state.file := by
    have htask := hc.task ()
    rw [hidle] at htask
    exact htask
  have hcfg : c = .idle c.state := by
    cases c with
    | mk state task =>
        have htask : task = fun _ => none := funext fun _ => hidle
        rw [htask]
        rfl
  obtain ⟨key, s', hs', _, hreach⟩ := reach_seed hu'
  rw [hcfg]
  exact ⟨_, hreach, key, hs'⟩

open KeysSeed in
/-- Two starts on a fresh directory. -/
theorem seed_kept_fresh :
    soundStarts.Can (.idle ⟨none, []⟩) fun c =>
      c.state.seeds.length = 2 ∧ ∀ key ∈ c.state.seeds, c.state.file = some key.bytes := by
  have hu : Usable none := nofun
  obtain ⟨key₁, s₁, hs₁, hu₁, h₁⟩ := reach_seed (s := ⟨none, []⟩) hu
  obtain ⟨key₂, s₂, hs₂, _, h₂⟩ := reach_seed hu₁
  refine ⟨.idle s₂, h₁.trans h₂, ?_, ?_⟩
  · show s₂.seeds.length = 2
    simp [hs₁, hs₂]
  · exact (seed_kept (s := ⟨none, []⟩) rfl hu (h₁.trans h₂)).1

namespace KeysSeed

/-- Starts of any kind. -/
def anyStarts : System Unit SeedAct SeedAct.Answer SeedResult SeedFile := starts fun _ => True

theorem reach_start {s s₁ s₂ : SeedFile} {x : SeedResult} (readable : Bool) (byte : UInt8)
    (hr : run (answering readable byte) keysSeed s = some (x, s₁))
    (hf : anyStarts.finish () x s₁ s₂) : anyStarts.Reach (.idle s) (.idle s₂) :=
  System.reach_call (t := ()) (fun a s r s' h => (answering_exec a s r s' h).1) ⟨rfl, rfl⟩ hr hf

/-- An empty file, which no start that reads it gets past. -/
def stuck : Outline (anyStarts.onlyIf Reads) :=
  .solo _ (fun s => s = ⟨some [], []⟩) (fun _ => True) (fun x _ => x = .panicked)
    (by
      rintro s p s' ⟨hp, hs'⟩ hi _
      rw [hp, hs']
      refine ⟨hi, ?_⟩
      have hrule : (Discipline.solo (anyStarts.onlyIf Reads) fun s => s = ⟨some [], []⟩).Triple ()
          (fun _ => True) keysSeed fun x _ => x = .panicked := by
        refine .solo (fun r _ => r = .ok []) ?_ fun r => ?_
        · rintro s hi _ r _ ⟨⟨rfl, hread⟩, hok⟩
          cases r with
          | ok bytes =>
              have hb := hread bytes rfl
              rw [hi] at hb
              exact ⟨hi, by rw [Option.some.inj hb]⟩
          | error e =>
              have hnone : SeedFile.file _ = none := hok
              rw [hi] at hnone
              exact nomatch hnone
        · cases r with
          | ok bytes =>
              refine .solo_ret ?_
              intro s _ hr
              cases hr
              rfl
          | error e => exact fun _ _ hr => nomatch hr
      exact hrule s hi trivial)
    (by
      rintro x s s' hf hi rfl
      exact ⟨hf.trans hi, trivial⟩)
    (fun h => h)
    (by
      rintro s s' ⟨_, hs'⟩ hi
      exact ⟨hs'.trans hi, trivial⟩)

end KeysSeed

open KeysSeed in
/-- A seed replaced, because the file could not be read; and a crash after
`File::create` that no later start gets past. -/
theorem seed_lost :
    (∃ (s : SeedFile) (key key' : Seed), anyStarts.Reach (.idle ⟨none, []⟩) (.idle s) ∧
      s.seeds = [key', key] ∧ key'.bytes ≠ key.bytes) ∧
    ∃ s : SeedFile, anyStarts.Reach (.idle ⟨none, []⟩) (.idle s) ∧
      ∀ c, (anyStarts.onlyIf Reads).Reach (.idle s) c → c.state.seeds = [] := by
  constructor
  · have h₁ : anyStarts.Reach (.idle ⟨none, []⟩) (.idle _) := reach_start true 0 rfl rfl
    have h₂ := h₁.trans (reach_start false 1 rfl rfl)
    exact ⟨_, _, _, h₂, rfl, by decide⟩
  · have hcan : anyStarts.Can (.idle ⟨none, []⟩) fun c => c = .idle ⟨some [], []⟩ := by
      refine .step (.start (t := ()) rfl ⟨rfl, rfl⟩) ?_
      have hstep : ∀ (a : SeedAct) (s : SeedFile) (r : a.Answer) (s' : SeedFile),
          answering true 0 a s = some (r, s') → anyStarts.exec () a s r s' :=
        fun a s r s' h => (answering_exec a s r s' h).1
      refine .acts hstep 3 ?_
      exact .step (.crash ⟨trivial, rfl⟩) (.here rfl)
    obtain ⟨_, hreach, rfl⟩ := hcan
    refine ⟨_, hreach, ?_⟩
    intro c hc
    have hinit : stuck.Inv (.idle ⟨some [], []⟩) := .init _ rfl fun _ => trivial
    rw [(hinit.reach _ hc).1.state]

end LightningNode
