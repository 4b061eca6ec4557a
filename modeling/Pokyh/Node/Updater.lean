import Mathlib.Logic.Function.Basic
import Pokyh.Lib.Interruptions
import Pokyh.Node.ComposePolicy
import Pokyh.Node.Settings

/-!
# Node — Updater

The updater of a node (`carryOut`, `recoverInterrupted` and `main` of `deploy/node/updater.mjs`): a new version is started as the
other colour next to the running one, which is stopped when the new one is healthy.

* `update_works_iff`: **what an update leaves behind**, for every operation before which the updater is killed and every command
  that fails.
* `killed_while_starting`: the version that was starting stays recorded as the one to go back to.

A version is the first twelve digits of its commit.  Docker's commands have their effect as a whole or fail; a container that does
not become healthy is started again until it is removed.  Its images, what the build of a version is made of, notes and messages
are left out.
-/

namespace Pokyh.Node
open Pokyh.Lib

inductive Color where
  | blue
  | green
  deriving DecidableEq, Repr

namespace Color

def other : Color → Color
  | .blue => .green
  | .green => .blue

/-- Its name, and its profile's. -/
def name : Color → Text
  | .blue => "blue".toList
  | .green => "green".toList

def imageKey : Color → Text
  | .blue => "POKYH_IMAGE_BLUE".toList
  | .green => "POKYH_IMAGE_GREEN".toList

end Color

def profilesKey : Text := "COMPOSE_PROFILES".toList

structure Container where
  /-- The version it runs. -/
  tag : Text
  running : Bool
  deriving DecidableEq, Repr

/-- The two colours of the app. -/
structure Stack where
  /-- The file that names the active colour. -/
  activeFile : Option Text
  /-- `compose.env` -/
  env : Text
  container : Color → Option Container
  /-- The versions that have become healthy. -/
  healthy : List Text
  /-- The versions that have run as the active colour. -/
  served : List Text

namespace Stack
variable (s : Stack) (color : Color)

def activeColor : Color := if s.activeFile.map trim = some Color.green.name then .green else .blue

def image : Text := (readEnvFile s.env color.imageKey).getD []

def profiles : Text := (readEnvFile s.env profilesKey).getD []

def setEnv (env : Text) : Stack := { s with env := env }

/-- `docker compose up`: the container runs the version that is recorded. -/
def up : Stack := { s with container := Function.update s.container color (some ⟨s.image color, true⟩) }

/-- `docker compose rm -sf` -/
def rm : Stack := { s with container := Function.update s.container color none }

/-- `docker compose stop` -/
def stop : Stack :=
  { s with container := Function.update s.container color ((s.container color).map fun c => { c with running := false }) }

/-- The version that the colour runs is healthy. -/
def becomesHealthy : Stack :=
  { s with healthy := ((s.container color).map Container.tag).toList ++ s.healthy }

/-- The colour is named active. -/
def activate : Stack :=
  { s with
    activeFile := some (color.name ++ ['\n'])
    served := ((s.container color).map Container.tag).toList ++ s.served }

end Stack

inductive UpdateState where
  | preparing | building | starting | switching | done | failed
  deriving DecidableEq, Repr

structure Status where
  id : Text
  state : UpdateState
  deriving DecidableEq, Repr

/-- The files outside the app. -/
structure Runtime where
  compose : Text
  composePrevious : Option Text
  dockerfile : Option Text
  edge : Option Text
  updater : Option Text
  deriving DecidableEq, Repr

structure State where
  stack : Stack
  status : Option Status
  runtime : Runtime

/-! ### Requests -/

inductive Source where
  | rollback
  | bundle
  | git
  | unknown
  deriving DecidableEq, Repr

structure Request where
  id : Text
  source : Source
  commit : Text
  sha256 : Text
  repo : Text
  deriving DecidableEq, Repr

def isHex (c : Char) : Bool := c.isDigit || ('a' ≤ c && c ≤ 'f')

/-- What the updater is given. -/
structure Site where
  cwd : Path
  home : String
  /-- An https address without a user or a password; none when it cannot be read. -/
  https : Text → Option Bool

def validRequest (site : Site) (request : Request) : Option String :=
  if ¬ (request.id.length = 36 ∧ request.id.all fun c => isHex c || c = '-') then some "malformed request"
  else
    match request.source with
    | .rollback => none
    | .bundle =>
        if ¬ (request.commit.length = 40 ∧ request.commit.all isHex) then some "malformed commit"
        else if ¬ (request.sha256.length = 64 ∧ request.sha256.all isHex) then some "malformed hash"
        else none
    | .git =>
        if ¬ (request.commit.length = 40 ∧ request.commit.all isHex) then some "malformed commit"
        else
          match site.https request.repo with
          | none => some "the repository address is malformed"
          | some false => some "the repository must be an https address"
          | some true => none
    | .unknown =>
        if ¬ (request.commit.length = 40 ∧ request.commit.all isHex) then some "malformed commit" else some "unknown source"

/-! ### One update -/

/-- The operations of an update, in the order of the source. -/
inductive Op where
  | preparing | prepareRelease | building | build
  | render | keepCompose | copyCompose | buildUpdater | copyDockerfile | copyEdge | copyUpdater | removeTrusted
  | starting | recordImage | up | waitHealthy
  | remove | restoreEnv | restoreCompose
  | switching | stop | activate | swapProfile | upOthers | cleanup | done
  | recreateSelf | failed
  deriving DecidableEq, Repr

def State.onStack (f : Stack → Stack) (n : State) : State := { n with stack := f n.stack }

def State.onRuntime (f : Runtime → Runtime) (n : State) : State := { n with runtime := f n.runtime }

def State.setStatus (id : Text) (state : UpdateState) (n : State) : State := { n with status := some ⟨id, state⟩ }

/-- What the trusted repository has for the commit, with the definition as Docker renders it. -/
structure Shipped where
  compose : Option Text
  rendered : Config
  dockerfile : Option Text
  edge : Option Text
  updater : Option Text
  deriving DecidableEq, Repr

/-- What of the runtime changes with an update. -/
structure Changes where
  compose : Bool
  edge : Bool
  updater : Bool
  updaterImage : Bool
  deriving DecidableEq, Repr

def Changes.none : Changes := ⟨false, false, false, false⟩

/-- A file that is shipped and not as installed. -/
def differs (shipped installed : Option Text) : Bool := shipped.isSome && shipped ≠ installed

def Shipped.changes (shipped : Shipped) (runtime : Runtime) : Changes :=
  ⟨differs shipped.compose (some runtime.compose), differs shipped.edge runtime.edge, differs shipped.updater runtime.updater,
    differs shipped.dockerfile runtime.dockerfile⟩

def write (op : Op) (f : State → State) : Operation Op State := ⟨op, false, f⟩

def command (op : Op) : Operation Op State := ⟨op, true, id⟩

/-- `applyRuntime`, up to the policy. -/
def rendering (changes : Changes) : List (Operation Op State) := if changes.compose then [command .render] else []

/-- `applyRuntime`, after the policy. -/
def applying (shipped : Shipped) (changes : Changes) : List (Operation Op State) :=
  (if changes.compose then
    [write .keepCompose (.onRuntime fun r => { r with composePrevious := some r.compose }),
      write .copyCompose (.onRuntime fun r => { r with compose := shipped.compose.getD r.compose })] else []) ++
  (if changes.updaterImage then
    [command .buildUpdater, write .copyDockerfile (.onRuntime fun r => { r with dockerfile := shipped.dockerfile })] else []) ++
  (if changes.edge then [write .copyEdge (.onRuntime fun r => { r with edge := shipped.edge })] else []) ++
  (if changes.updater then [write .copyUpdater (.onRuntime fun r => { r with updater := shipped.updater })] else []) ++
  [write .removeTrusted id]

/-- The version is fetched and built. -/
def building (request : Request) : List (Operation Op State) :=
  [write .preparing (.setStatus request.id .preparing), command .prepareRelease,
    write .building (.setStatus request.id .building), command .build]

/-- The files as they were before a start that failed. -/
def restoring (envBefore : Text) (changes : Changes) : Program Op State :=
  .write .restoreEnv (.onStack (·.setEnv envBefore)) <|
    if changes.compose then
      .write .restoreCompose (.onRuntime fun r => { r with compose := r.composePrevious.getD r.compose }) (.ends .threw)
    else .ends .threw

/-- The undoing of a start that failed. -/
def undoing (envBefore : Text) (other : Color) (changes : Changes) : Program Op State :=
  .may .remove (.onStack (·.rm other)) (restoring envBefore changes)

/-- The rest of the stack follows, and what is not needed any more goes. -/
def finishing (request : Request) (changes : Changes) : Program Op State :=
  (if changes.compose || changes.edge then .may .upOthers id else id) <|
    .may .cleanup id <| .write .done (.setStatus request.id .done) <| .ends .returned

/-- From the version that has become healthy to the end. -/
def switching (request : Request) (active : Color) (changes : Changes) : Program Op State :=
  .write .switching (.setStatus request.id .switching) <|
    .must .stop (.onStack (·.stop active)) <|
      .write .activate (.onStack (·.activate active.other)) <|
        .write .swapProfile (.onStack fun s =>
          s.setEnv (updateEnvText s.env [(profilesKey, swapProfile s.profiles active.name active.other.name)])) <|
          finishing request changes

/-- From the version that is built to the end. -/
def starting (request : Request) (active : Color) (envBefore tag : Text) (changes : Changes) : Program Op State :=
  .write .starting (.setStatus request.id .starting) <|
    .write .recordImage (.onStack (·.setEnv (updateEnvText envBefore [(active.other.imageKey, tag)]))) <|
      .command .up (.onStack (·.up active.other))
        (.command .waitHealthy (.onStack (·.becomesHealthy active.other)) (switching request active changes)
          (undoing envBefore active.other changes))
        (undoing envBefore active.other changes)

/-- The version to go back to. -/
def previousTag (s : Stack) : Option Text :=
  let tag := s.image s.activeColor.other
  if tag = [] ∨ tag = s.image s.activeColor ∨ tag = "none".toList then none else some tag

/-- What is shipped breaks the policy. -/
def refused (site : Site) (shipped : Option Shipped) (runtime : Runtime) : Bool :=
  shipped.any fun shipped => (shipped.changes runtime).compose && checkComposePolicy site.cwd site.home shipped.rendered ≠ []

def changesOf (shipped : Option Shipped) (runtime : Runtime) : Changes :=
  (shipped.map fun shipped => shipped.changes runtime).getD .none

def applyingOf (shipped : Option Shipped) (runtime : Runtime) : List (Operation Op State) :=
  (shipped.map fun shipped => applying shipped (shipped.changes runtime)).getD []

def carryOut (site : Site) (shipped : Option Shipped) (request : Request) (n : State) : Program Op State :=
  let active := n.stack.activeColor
  match request.source with
  | .rollback =>
      match previousTag n.stack with
      | none => .ends .threw
      | some tag => starting request active n.stack.env tag .none
  | _ =>
      let changes := changesOf shipped n.runtime
      sequence (building request ++ rendering changes) <|
        if refused site shipped n.runtime then .ends .threw
        else sequence (applyingOf shipped n.runtime) <|
          starting request active n.stack.env (request.commit.take 12) changes

/-- What `main` does with a request: the updater is made anew if its image changed, and an error is reported. -/
def handle (site : Site) (shipped : Option Shipped) (request : Request) (n : State) : Program Op State :=
  match validRequest site request with
  | some _ => .write .failed (.setStatus request.id .failed) (.ends .returned)
  | none =>
      let changes := if request.source = .rollback then .none else changesOf shipped n.runtime
      ((carryOut site shipped request n).andThen
        (if changes.updaterImage then .must .recreateSelf id (.ends .returned) else .ends .returned)).orElse
        (.write .failed (.setStatus request.id .failed) (.ends .returned))

/-- An update this process was carrying out when it stopped; whether its two commands succeed is given from outside. -/
def recoverInterrupted (upWorks removeWorks : Bool) (n : State) : State :=
  match n.status with
  | none => n
  | some previous =>
      if previous.state = .done ∨ previous.state = .failed then n
      else
        let active := n.stack.activeColor
        let n := if upWorks then n.onStack (·.up active) else n
        let n := if previous.state ≠ .switching ∧ removeWorks then n.onStack (·.rm active.other) else n
        n.setStatus previous.id .failed

/-- How an update goes. -/
structure Circumstances where
  fate : Op → Fate
  /-- The commands of the recovery succeed. -/
  recoverUp : Bool
  recoverRemove : Bool

/-- A request, and the recovery if the updater is killed on the way. -/
def update (site : Site) (shipped : Option Shipped) (request : Request) (c : Circumstances) (n : State) : State :=
  match exec c.fate (handle site shipped request n) n with
  | (.killed, n) => recoverInterrupted c.recoverUp c.recoverRemove n
  | (_, n) => n

/-! ### What should be left behind -/

/-- The version recorded for the other colour, if any, once ran as the active one. -/
def Stack.Previous (s : Stack) : Prop :=
  s.image s.activeColor.other = [] ∨ s.image s.activeColor.other = "none".toList ∨ s.image s.activeColor.other ∈ s.served

/-- The node runs one version that is known to work, and can go back only to such a one. -/
structure Stack.Works (s : Stack) : Prop where
  running : ∃ tag ∈ s.served, s.container s.activeColor = some ⟨tag, true⟩ ∧ s.image s.activeColor = tag
  other : ∀ container, s.container s.activeColor.other = some container → container.running = false
  profiles : s.activeColor.name ∈ items ',' s.profiles ∧ s.activeColor.other.name ∉ items ',' s.profiles
  previous : s.Previous
  healthy : ∀ tag ∈ s.served, tag ∈ s.healthy

namespace Circumstances
variable (c : Circumstances)

/-- A start that failed leaves nothing behind; `up`: the other colour is running, `again`: the version once ran as active. -/
def undoes (composeChanged again up : Bool) : Bool :=
  match c.fate .remove with
  | .killed => again && (!up || c.recoverRemove)
  | .done => c.fate .restoreEnv ≠ .killed || again
  | .fails =>
      if c.fate .restoreEnv = .killed then again && (!up || c.recoverRemove)
      else
        -- the recovery removes the other colour once more
        !up || (((composeChanged && c.fate .restoreCompose = .killed) || c.fate .failed = .killed) && c.recoverRemove)

/-- What happens to an update after its version is built leaves nothing behind. -/
def spares (composeChanged again : Bool) : Bool :=
  if c.fate .starting = .killed || c.fate .recordImage = .killed then true
  else
    match c.fate .up with
    | .killed => again
    | .fails => c.undoes composeChanged again false
    | .done =>
        match c.fate .waitHealthy with
        | .killed => again && c.recoverRemove
        | .fails => c.undoes composeChanged again true
        | .done =>
            if c.fate .switching = .killed then again && c.recoverRemove
            else c.fate .stop = .done && c.fate .activate ≠ .killed && c.fate .swapProfile ≠ .killed

/-- The version is built and what is shipped with it applied. -/
def prepares (site : Site) (shipped : Option Shipped) (request : Request) (n : State) : Bool :=
  (building request ++ rendering (changesOf shipped n.runtime)).all (·.passes c.fate) && !refused site shipped n.runtime &&
    (applyingOf shipped n.runtime).all (·.passes c.fate)

/-- The update leaves nothing behind. -/
def safe (site : Site) (shipped : Option Shipped) (request : Request) (n : State) : Bool :=
  (validRequest site request).isSome ||
    if request.source = .rollback then (previousTag n.stack).isNone || c.spares false true
    else !c.prepares site shipped request n ||
      c.spares (changesOf shipped n.runtime).compose (request.commit.take 12 ∈ n.stack.served)

end Circumstances

/-! ### The two colours -/

@[simp] theorem Color.other_other (color : Color) : color.other.other = color := by cases color <;> rfl

theorem Color.other_ne (color : Color) : color.other ≠ color := by cases color <;> decide

theorem Color.validKey (color : Color) : validKey color.imageKey = true := by cases color <;> decide

theorem Color.imageKey_ne (color : Color) : color.imageKey ≠ color.other.imageKey := by cases color <;> decide

theorem Color.imageKey_ne_profiles (color : Color) : color.imageKey ≠ profilesKey := by cases color <;> decide

theorem validKey_profiles : validKey profilesKey = true := by decide

theorem Color.item (color : Color) : Item ',' color.name := by cases color <;> constructor <;> decide

theorem Color.name_line_end (color : Color) : color.name.all (!isLineEnd ·) = true := by cases color <;> decide

theorem Color.name_ne (color : Color) : color.other.name ≠ color.name := by cases color <;> decide

@[simp] theorem Stack.activeColor_activate (s : Stack) (color : Color) : (s.activate color).activeColor = color := by
  cases color <;> rfl

namespace Stack
variable {s : Stack} {env env' tag : Text} {b : Option Container} {healthy : List Text}

/-- The stack while a version is tried: other settings, another container of the other colour, and what has become healthy. -/
def trial (s : Stack) (env : Text) (b : Option Container) (healthy : List Text) : Stack :=
  { s with env := env, container := Function.update s.container s.activeColor.other b, healthy := healthy }

theorem trial_self (s : Stack) : s.trial s.env (s.container s.activeColor.other) s.healthy = s := by
  simp [trial]

@[simp] theorem activeColor_trial (s : Stack) (env : Text) (b : Option Container) (healthy : List Text) :
    (s.trial env b healthy).activeColor = s.activeColor := rfl

@[simp] theorem setEnv_trial (s : Stack) (env env' : Text) (b : Option Container) (healthy : List Text) :
    (s.trial env b healthy).setEnv env' = s.trial env' b healthy := rfl

@[simp] theorem rm_trial (s : Stack) (env : Text) (b : Option Container) (healthy : List Text) :
    (s.trial env b healthy).rm s.activeColor.other = s.trial env none healthy := by
  simp [trial, rm]

@[simp] theorem up_trial (s : Stack) (env : Text) (b : Option Container) (healthy : List Text) :
    (s.trial env b healthy).up s.activeColor.other =
      s.trial env (some ⟨(s.trial env b healthy).image s.activeColor.other, true⟩) healthy := by
  simp [trial, up]

@[simp] theorem becomesHealthy_trial (s : Stack) (env : Text) (b : Option Container) (healthy : List Text) :
    (s.trial env b healthy).becomesHealthy s.activeColor.other =
      s.trial env b ((b.map Container.tag).toList ++ healthy) := by
  simp [trial, becomesHealthy]

/-- Settings that differ from those of the stack at most in the version of the other colour. -/
structure Keeps (s : Stack) (env : Text) : Prop where
  image : (s.setEnv env).image s.activeColor = s.image s.activeColor
  profiles : (s.setEnv env).profiles = s.profiles

theorem Keeps.refl (s : Stack) : s.Keeps s.env := ⟨rfl, rfl⟩

/-- The settings in which a version is recorded. -/
def recorded (s : Stack) (tag : Text) : Text := updateEnvText s.env [(s.activeColor.other.imageKey, tag)]

theorem keeps_recorded (s : Stack) (htag : tag.all (!isLineEnd ·) = true) : s.Keeps (s.recorded tag) := by
  constructor
  · simp only [image, setEnv, recorded]
    rw [readEnvFile_update_ne (Color.validKey _) htag (Color.imageKey_ne _)]
  · simp only [profiles, setEnv, recorded]
    rw [readEnvFile_update_ne (Color.validKey _) htag (Color.imageKey_ne_profiles _).symm]

theorem image_recorded (s : Stack) (htag : tag.all (!isLineEnd ·) = true) :
    (s.setEnv (s.recorded tag)).image s.activeColor.other = tag := by
  simp only [image, setEnv, recorded]
  rw [readEnvFile_update (Color.validKey _) htag]
  rfl

/-- **What a trial leaves behind**: nothing, if the other colour does not run and its version is one to go back to. -/
theorem trial_works_iff (hs : s.Works) (henv : s.Keeps env) (hhealthy : ∀ tag ∈ s.healthy, tag ∈ healthy) :
    (s.trial env b healthy).Works ↔
      (s.setEnv env).Previous ∧ ∀ container, b = some container → container.running = false := by
  constructor
  · intro h
    refine ⟨h.previous, fun container hb => h.other container ?_⟩
    simp [trial, activeColor, hb]
  · rintro ⟨hprevious, hb⟩
    obtain ⟨tag, htag, hcontainer, himage⟩ := hs.running
    refine ⟨⟨tag, htag, ?_, henv.image.trans himage⟩, fun container hother => ?_, ?_, hprevious,
      fun tag htag => hhealthy tag (hs.healthy tag htag)⟩
    · rw [activeColor_trial]
      simpa [trial, Function.update_of_ne (Color.other_ne _).symm] using hcontainer
    · rw [activeColor_trial] at hother
      exact hb container (by simpa [trial] using hother)
    · have hprofiles : (s.trial env b healthy).profiles = s.profiles := henv.profiles
      rw [hprofiles, activeColor_trial]
      exact hs.profiles

/-- The active colour is running what is recorded for it: to start it changes nothing. -/
theorem up_active_trial (hs : s.Works) (henv : s.Keeps env) :
    (s.trial env b healthy).up s.activeColor = s.trial env b healthy := by
  obtain ⟨tag, -, hcontainer, himage⟩ := hs.running
  have himage' : (s.trial env b healthy).image s.activeColor = tag := henv.image.trans himage
  have hthere : (s.trial env b healthy).container s.activeColor = some ⟨tag, true⟩ := by
    simpa [trial, Function.update_of_ne (Color.other_ne _).symm] using hcontainer
  rw [up, himage', ← hthere, Function.update_eq_self]

end Stack

/-! ### The recovery -/

/-- What the recovery makes of a trial. -/
theorem recoverInterrupted_trial {s : Stack} {n : State} {env : Text} {b : Option Container} {healthy : List Text} {id : Text}
    {state : UpdateState} (hs : s.Works) (henv : s.Keeps env) (hn : n.stack = s.trial env b healthy)
    (hstatus : n.status = some ⟨id, state⟩) (hstate : state ≠ .done ∧ state ≠ .failed) (upWorks removeWorks : Bool) :
    (recoverInterrupted upWorks removeWorks n).stack =
      s.trial env (if state ≠ .switching ∧ removeWorks then none else b) healthy := by
  have hup : (if upWorks then n.onStack (·.up n.stack.activeColor) else n).stack = s.trial env b healthy := by
    split
    · simp only [State.onStack, hn, Stack.activeColor_trial]
      exact Stack.up_active_trial hs henv
    · exact hn
  have hrm : ∀ n' : State, n'.stack = s.trial env b healthy →
      (n'.onStack (·.rm n.stack.activeColor.other)).stack = s.trial env none healthy := by
    intro n' hn'
    simp only [State.onStack, hn', hn, Stack.activeColor_trial]
    exact Stack.rm_trial s env b healthy
  simp only [recoverInterrupted, hstatus, hstate.1, hstate.2, or_self, if_false, State.setStatus]
  split
  · exact hrm _ hup
  · exact hup

/-- A node that works still does after the recovery. -/
theorem Stack.Works.recoverInterrupted {n : State} (h : n.stack.Works) (upWorks removeWorks : Bool) :
    (recoverInterrupted upWorks removeWorks n).stack.Works := by
  cases hstatus : n.status with
  | none => simpa [Node.recoverInterrupted, hstatus] using h
  | some status =>
      by_cases hstate : status.state = .done ∨ status.state = .failed
      · simpa [Node.recoverInterrupted, hstatus, hstate] using h
      · rw [recoverInterrupted_trial h (.refl _) n.stack.trial_self.symm hstatus (not_or.mp hstate),
          Stack.trial_works_iff h (.refl _) fun _ h => h]
        refine ⟨h.previous, fun container hb => ?_⟩
        split at hb
        · cases hb
        · exact h.other container hb

/-! ### How an update ends -/

/-- What is left once an update has ended: by `main` when it returned or threw, by the recovery when the updater was killed. -/
def Circumstances.outcome (c : Circumstances) (id : Text) (recreates : Bool) (result : Ending × State) : State :=
  let dies : State := recoverInterrupted c.recoverUp c.recoverRemove result.2
  let fails : State := if c.fate .failed = .killed then dies else result.2.setStatus id .failed
  match result.1 with
  | .killed => dies
  | .threw => fails
  | .returned =>
      if recreates then
        match c.fate .recreateSelf with
        | .done => result.2
        | .fails => fails
        | .killed => dies
      else result.2

variable {c : Circumstances} {s : Stack} {n : State} {env tag id : Text} {b : Option Container} {healthy : List Text}

theorem outcome_works (h : n.stack.Works) (id : Text) (recreates : Bool) (ending : Ending) :
    (c.outcome id recreates (ending, n)).stack.Works := by
  have hdies := h.recoverInterrupted c.recoverUp c.recoverRemove
  have hfails : (if c.fate .failed = .killed then recoverInterrupted c.recoverUp c.recoverRemove n
      else n.setStatus id .failed).stack.Works := by
    split
    · exact hdies
    · exact h
  cases ending with
  | killed => exact hdies
  | threw => exact hfails
  | returned =>
      cases recreates with
      | false => exact h
      | true =>
          simp only [Circumstances.outcome, if_true]
          split
          · exact h
          · exact hfails
          · exact hdies

/-- The settings name a version that may be gone back to. -/
theorem previous_recorded (htag : tag.all (!isLineEnd ·) = true) (hne : tag ≠ [] ∧ tag ≠ "none".toList) :
    (s.setEnv (s.recorded tag)).Previous ↔ tag ∈ s.served := by
  have himage : (s.setEnv (s.recorded tag)).image (s.setEnv (s.recorded tag)).activeColor.other = tag :=
    s.image_recorded htag
  rw [Stack.Previous, himage, or_iff_right hne.1, or_iff_right hne.2]
  rfl

/-- Killed while the version is tried. -/
theorem killed_trial_iff (hs : s.Works) (htag : tag.all (!isLineEnd ·) = true) (hne : tag ≠ [] ∧ tag ≠ "none".toList)
    (hn : n.stack = s.trial (s.recorded tag) b healthy) (hhealthy : ∀ tag ∈ s.healthy, tag ∈ healthy)
    (hstatus : n.status = some ⟨id, .starting⟩) :
    (recoverInterrupted c.recoverUp c.recoverRemove n).stack.Works ↔
      tag ∈ s.served ∧ (c.recoverRemove = true ∨ ∀ container, b = some container → container.running = false) := by
  have henv := s.keeps_recorded htag
  rw [recoverInterrupted_trial hs henv hn hstatus (by decide), Stack.trial_works_iff hs henv hhealthy,
    previous_recorded htag hne]
  cases c.recoverRemove <;> simp

/-- Killed when the settings are restored. -/
theorem killed_restored_iff (hs : s.Works) (hn : n.stack = s.trial s.env b healthy)
    (hhealthy : ∀ tag ∈ s.healthy, tag ∈ healthy) (hstatus : n.status = some ⟨id, .starting⟩) :
    (recoverInterrupted c.recoverUp c.recoverRemove n).stack.Works ↔
      c.recoverRemove = true ∨ ∀ container, b = some container → container.running = false := by
  rw [recoverInterrupted_trial hs (.refl s) hn hstatus (by decide), Stack.trial_works_iff hs (.refl s) hhealthy]
  have hprevious : (s.setEnv s.env).Previous := hs.previous
  cases c.recoverRemove <;> simp [hprevious]

/-- The files are restored, whatever has become of the other colour. -/
theorem restoring_works_iff (hs : s.Works) (htag : tag.all (!isLineEnd ·) = true) (hne : tag ≠ [] ∧ tag ≠ "none".toList)
    (hn : n.stack = s.trial (s.recorded tag) b healthy) (hhealthy : ∀ tag ∈ s.healthy, tag ∈ healthy)
    (hstatus : n.status = some ⟨id, .starting⟩) (changes : Changes) (recreates : Bool) :
    (c.outcome id recreates (exec c.fate (restoring s.env changes) n)).stack.Works ↔
      if c.fate .restoreEnv = .killed then
        tag ∈ s.served ∧ (c.recoverRemove = true ∨ ∀ container, b = some container → container.running = false)
      else (∀ container, b = some container → container.running = false) ∨
        ((changes.compose = true ∧ c.fate .restoreCompose = .killed) ∨ c.fate .failed = .killed) ∧ c.recoverRemove = true := by
  by_cases henv : c.fate .restoreEnv = .killed
  · simp only [restoring, exec, henv, if_true, Circumstances.outcome]
    exact killed_trial_iff hs htag hne hn hhealthy hstatus
  · -- from here on the settings are as before
    have hrestored : ∀ n' : State, n'.stack = s.trial s.env b healthy → n'.status = some ⟨id, .starting⟩ →
        ((c.outcome id recreates (.threw, n')).stack.Works ↔
          (∀ container, b = some container → container.running = false) ∨ c.fate .failed = .killed ∧ c.recoverRemove = true) := by
      intro n' hn' hstatus'
      by_cases hfailed : c.fate .failed = .killed
      · simp only [Circumstances.outcome, hfailed, if_true, true_and]
        rw [killed_restored_iff hs hn' hhealthy hstatus', or_comm]
      · simp only [Circumstances.outcome, hfailed, if_false, State.setStatus, hn', false_and, or_false]
        rw [Stack.trial_works_iff hs (.refl s) hhealthy]
        exact and_iff_right hs.previous
    have hstack : (n.onStack (·.setEnv s.env)).stack = s.trial s.env b healthy := by
      simp [State.onStack, hn]
    cases hcompose : changes.compose with
    | false =>
        simp only [restoring, exec, henv, if_false, hcompose, Bool.false_eq_true, false_and, false_or]
        exact hrestored _ hstack hstatus
    | true =>
        by_cases hkilled : c.fate .restoreCompose = .killed
        · simp only [restoring, exec, henv, if_false, hcompose, if_true, hkilled, Circumstances.outcome, true_and, true_or]
          rw [killed_restored_iff hs hstack hhealthy hstatus, or_comm]
        · simp only [restoring, exec, henv, if_false, hcompose, if_true, hkilled, and_false, false_or]
          exact hrestored _ hstack hstatus

/-- **The undoing of a start.** -/
theorem undoing_works_iff (hs : s.Works) (htag : tag.all (!isLineEnd ·) = true) (hne : tag ≠ [] ∧ tag ≠ "none".toList)
    (hn : n.stack = s.trial (s.recorded tag) b healthy) (hhealthy : ∀ tag ∈ s.healthy, tag ∈ healthy)
    (hstatus : n.status = some ⟨id, .starting⟩) {up : Bool}
    (hb : (∀ container, b = some container → container.running = false) ↔ up = false) (changes : Changes) (recreates : Bool) :
    (c.outcome id recreates (exec c.fate (undoing s.env s.activeColor.other changes) n)).stack.Works ↔
      c.undoes changes.compose (tag ∈ s.served) up = true := by
  cases hremove : c.fate .remove with
  | killed =>
      simp only [undoing, Program.may, exec, hremove, Circumstances.outcome, Circumstances.undoes]
      rw [killed_trial_iff hs htag hne hn hhealthy hstatus, hb]
      simp [or_comm]
  | done =>
      have hstack : (n.onStack (·.rm s.activeColor.other)).stack = s.trial (s.recorded tag) none healthy := by
        simp [State.onStack, hn]
      simp only [undoing, Program.may, exec, hremove, Circumstances.undoes]
      rw [restoring_works_iff hs htag hne hstack hhealthy hstatus]
      split <;> simp_all
  | fails =>
      simp only [undoing, Program.may, exec, hremove, Circumstances.undoes]
      rw [restoring_works_iff hs htag hne hn hhealthy hstatus, hb]
      split <;> simp_all [or_comm]

/-- The recovery changes neither the settings nor which colour is active. -/
theorem recoverInterrupted_frame (upWorks removeWorks : Bool) (n : State) :
    (recoverInterrupted upWorks removeWorks n).stack.env = n.stack.env ∧
      (recoverInterrupted upWorks removeWorks n).stack.activeFile = n.stack.activeFile := by
  unfold recoverInterrupted
  split
  · exact ⟨rfl, rfl⟩
  · split
    · exact ⟨rfl, rfl⟩
    · cases upWorks
      · simp only [Bool.false_eq_true, if_false]
        split <;> exact ⟨rfl, rfl⟩
      · simp only [if_true]
        split <;> exact ⟨rfl, rfl⟩

/-- While a switch is on the way the recovery leaves the other colour alone. -/
theorem recoverInterrupted_other (upWorks removeWorks : Bool) (hstatus : n.status = some ⟨id, .switching⟩) :
    (recoverInterrupted upWorks removeWorks n).stack.container n.stack.activeColor.other =
      n.stack.container n.stack.activeColor.other := by
  cases upWorks
  · simp [recoverInterrupted, hstatus, State.setStatus]
  · simp [recoverInterrupted, hstatus, State.setStatus, State.onStack, Stack.up, Function.update_of_ne (Color.other_ne _)]

theorem not_works_of_other (hother : n.stack.container n.stack.activeColor.other = some ⟨tag, true⟩) : ¬ n.stack.Works :=
  fun h => absurd (h.other _ hother) (by simp)

/-- Interrupted while both colours run, the switch on the way. -/
theorem outcome_not_works (hother : n.stack.container n.stack.activeColor.other = some ⟨tag, true⟩)
    {previous : Text} (hstatus : n.status = some ⟨previous, .switching⟩) (ending : Ending) (hending : ending ≠ .returned) (recreates : Bool) :
    ¬ (c.outcome id recreates (ending, n)).stack.Works := by
  have hdies : ¬ (recoverInterrupted c.recoverUp c.recoverRemove n).stack.Works := by
    have hactive : (recoverInterrupted c.recoverUp c.recoverRemove n).stack.activeColor = n.stack.activeColor := by
      simp only [Stack.activeColor, (recoverInterrupted_frame c.recoverUp c.recoverRemove n).2]
    exact not_works_of_other (by rw [hactive, recoverInterrupted_other _ _ hstatus, hother])
  cases ending with
  | killed => exact hdies
  | threw =>
      simp only [Circumstances.outcome]
      split
      · exact hdies
      · exact not_works_of_other hother
  | returned => exact absurd rfl hending

theorem finishing_keeps (request : Request) (changes : Changes) (n : State) :
    (exec c.fate (finishing request changes) n).2.stack = n.stack := by
  have hdone : ∀ n : State, (exec c.fate (.may .cleanup id <| .write .done (.setStatus request.id .done) <| .ends .returned) n).2.stack =
      n.stack := by
    intro n
    cases hcleanup : c.fate .cleanup <;> simp only [Program.may, exec, hcleanup, id_eq] <;> split <;> rfl
  unfold finishing
  split
  · cases hothers : c.fate .upOthers with
    | done => simpa only [Program.may, exec, hothers, id_eq] using hdone n
    | fails => simpa only [Program.may, exec, hothers] using hdone n
    | killed => simp only [Program.may, exec, hothers]
  · exact hdone n

/-- The stack when the new version is active and the profiles are not yet swapped. -/
def Stack.handedOver (t : Stack) : Stack := (t.stop t.activeColor).activate t.activeColor.other

theorem Stack.activeColor_handedOver (t : Stack) : t.handedOver.activeColor = t.activeColor.other :=
  Stack.activeColor_activate (t.stop t.activeColor) t.activeColor.other

theorem profiles_line_end (s : Stack) : s.profiles.all (!isLineEnd ·) = true := by
  unfold Stack.profiles
  cases hread : readEnvFile s.env profilesKey with
  | none => rfl
  | some value => exact readEnvFile_line_end hread

/-- **The node works when the switch is through.** -/
theorem works_of_switched (hs : s.Works) (htag : tag.all (!isLineEnd ·) = true) (hhealthy : ∀ tag ∈ s.healthy, tag ∈ healthy)
    (hnew : tag ∈ healthy) {t : Stack} (ht : t = s.trial (s.recorded tag) (some ⟨tag, true⟩) healthy) :
    (t.handedOver.setEnv (updateEnvText t.handedOver.env
      [(profilesKey, swapProfile t.handedOver.profiles s.activeColor.name s.activeColor.other.name)])).Works := by
  obtain ⟨old, hold, hcontainer, himage⟩ := hs.running
  have hswapped : (swapProfile t.handedOver.profiles s.activeColor.name s.activeColor.other.name).all (!isLineEnd ·) = true :=
    swapProfile_line_end (profiles_line_end t.handedOver) (Color.name_line_end s.activeColor.other)
  have hactive : ∀ env, (t.handedOver.setEnv env).activeColor = s.activeColor.other := fun env => by
    have hcolor : (t.handedOver.setEnv env).activeColor = t.activeColor.other := t.activeColor_handedOver
    rw [hcolor, ht, Stack.activeColor_trial]
  have henv : t.handedOver.env = s.recorded tag := by rw [ht]; rfl
  have hkeep : ∀ color : Color, (t.handedOver.setEnv (updateEnvText t.handedOver.env
      [(profilesKey, swapProfile t.handedOver.profiles s.activeColor.name s.activeColor.other.name)])).image color =
        (s.setEnv (s.recorded tag)).image color := by
    intro color
    simp only [Stack.image, Stack.setEnv]
    rw [readEnvFile_update_ne validKey_profiles hswapped (Color.imageKey_ne_profiles color), henv]
  have hserved : t.handedOver.served = tag :: s.served := by
    rw [ht]
    simp [Stack.handedOver, Stack.activate, Stack.stop, Stack.trial, Stack.activeColor,
      Function.update_of_ne (Color.other_ne _)]
  refine ⟨⟨tag, ?_, ?_, ?_⟩, fun container hother => ?_, ?_, .inr (.inr ?_), fun served hmem => ?_⟩
  · exact hserved ▸ List.mem_cons_self
  · rw [hactive, ht]
    simp [Stack.handedOver, Stack.activate, Stack.stop, Stack.trial, Stack.setEnv, Stack.activeColor,
      Function.update_of_ne (Color.other_ne _)]
  · rw [hactive, hkeep, s.image_recorded htag]
  · rw [hactive, Color.other_other, ht] at hother
    have hstopped : container = ⟨old, false⟩ := by
      have hcontainer' : s.container s.activeColor = some ⟨old, true⟩ := hcontainer
      simp only [Stack.handedOver, Stack.activate, Stack.stop, Stack.setEnv, Stack.activeColor_trial,
        Function.update_self] at hother
      rw [show (s.trial (s.recorded tag) (some ⟨tag, true⟩) healthy).container s.activeColor = some ⟨old, true⟩ by
        simpa [Stack.trial, Function.update_of_ne (Color.other_ne _).symm] using hcontainer'] at hother
      simpa using hother.symm
    rw [hstopped]
  · have hprofiles : (t.handedOver.setEnv (updateEnvText t.handedOver.env
        [(profilesKey, swapProfile t.handedOver.profiles s.activeColor.name s.activeColor.other.name)])).profiles =
          swapProfile t.handedOver.profiles s.activeColor.name s.activeColor.other.name := by
      simp only [Stack.setEnv]
      rw [Stack.profiles, readEnvFile_update validKey_profiles hswapped]
      rfl
    rw [hprofiles, hactive, Color.other_other, items_swapProfile (Color.item _)]
    refine ⟨List.mem_cons_self, fun hmem => ?_⟩
    rcases List.mem_cons.mp hmem with heq | hmem
    · exact Color.name_ne _ heq.symm
    · simp at hmem
  · have hprevious := (s.keeps_recorded htag).image.trans himage
    have hmem : old ∈ t.handedOver.served := hserved ▸ List.mem_cons_of_mem _ hold
    rw [hactive, Color.other_other, hkeep, hprevious]
    exact hmem
  · have hmem' : served ∈ tag :: s.served := hserved ▸ hmem
    have hset : t.handedOver.healthy = healthy := by rw [ht]; rfl
    refine hset ▸ ?_
    rcases List.mem_cons.mp hmem' with rfl | hmem'
    · exact hnew
    · exact hhealthy _ (hs.healthy _ hmem')

/-- The profiles name a colour that is not active any more. -/
theorem handedOver_not_works (hs : s.Works) (htag : tag.all (!isLineEnd ·) = true)
    (hn : n.stack = (s.trial (s.recorded tag) b healthy).handedOver) :
    ¬ (recoverInterrupted c.recoverUp c.recoverRemove n).stack.Works := by
  intro h
  obtain ⟨henv, hfile⟩ := recoverInterrupted_frame c.recoverUp c.recoverRemove n
  have hactive : (recoverInterrupted c.recoverUp c.recoverRemove n).stack.activeColor = s.activeColor.other := by
    calc (recoverInterrupted c.recoverUp c.recoverRemove n).stack.activeColor = n.stack.activeColor := by
          simp only [Stack.activeColor, hfile]
      _ = s.activeColor.other := by rw [hn, Stack.activeColor_handedOver, Stack.activeColor_trial]
  have hprofiles : (recoverInterrupted c.recoverUp c.recoverRemove n).stack.profiles = s.profiles := by
    calc (recoverInterrupted c.recoverUp c.recoverRemove n).stack.profiles = n.stack.profiles := by
          simp only [Stack.profiles, henv]
      _ = (s.setEnv (s.recorded tag)).profiles := by rw [hn]; rfl
      _ = s.profiles := (s.keeps_recorded htag).profiles
  have hnamed := h.profiles.1
  rw [hactive, hprofiles] at hnamed
  exact hs.profiles.2 hnamed

/-- **The switch.** -/
theorem switching_works_iff (hs : s.Works) (htag : tag.all (!isLineEnd ·) = true) (hne : tag ≠ [] ∧ tag ≠ "none".toList)
    (hn : n.stack = s.trial (s.recorded tag) (some ⟨tag, true⟩) healthy) (hhealthy : ∀ tag ∈ s.healthy, tag ∈ healthy)
    (hnew : tag ∈ healthy) (hstatus : n.status = some ⟨id, .starting⟩) (request : Request) (changes : Changes)
    (recreates : Bool) :
    (c.outcome id recreates (exec c.fate (switching request s.activeColor changes) n)).stack.Works ↔
      if c.fate .switching = .killed then tag ∈ s.served ∧ c.recoverRemove = true
      else c.fate .stop = .done ∧ c.fate .activate ≠ .killed ∧ c.fate .swapProfile ≠ .killed := by
  by_cases hswitching : c.fate .switching = .killed
  · simp only [switching, exec, hswitching, if_true, Circumstances.outcome]
    rw [killed_trial_iff hs htag hne hn hhealthy hstatus]
    simp
  · have hother : (n.setStatus request.id .switching).stack.container
        (n.setStatus request.id .switching).stack.activeColor.other = some ⟨tag, true⟩ := by
      simp only [State.setStatus, hn, Stack.activeColor_trial]
      simp [Stack.trial]
    simp only [switching, Program.must, exec, hswitching, if_false]
    cases hstop : c.fate .stop with
    | killed => simpa using outcome_not_works hother rfl .killed (by decide) recreates
    | fails => simpa using outcome_not_works hother rfl .threw (by decide) recreates
    | done =>
        simp only [true_and]
        by_cases hactivate : c.fate .activate = .killed
        · have hother' : ((n.setStatus request.id .switching).onStack (·.stop s.activeColor)).stack.container
              ((n.setStatus request.id .switching).onStack (·.stop s.activeColor)).stack.activeColor.other =
                some ⟨tag, true⟩ := by
            have hactive : n.stack.activeColor = s.activeColor := by rw [hn, Stack.activeColor_trial]
            have hcolor : ((n.setStatus request.id .switching).onStack (·.stop s.activeColor)).stack.activeColor =
                s.activeColor := hactive
            rw [hcolor]
            simp only [State.setStatus, hactive] at hother
            simpa [State.onStack, State.setStatus, Stack.stop, Function.update_of_ne (Color.other_ne _)] using hother
          simp only [hactivate, if_true, ne_eq, not_true_eq_false, false_and, iff_false]
          exact outcome_not_works hother' rfl .killed (by decide) recreates
        · simp only [hactivate, if_false, ne_eq, not_false_eq_true, true_and]
          have hhanded : (((n.setStatus request.id .switching).onStack (·.stop s.activeColor)).onStack
              (·.activate s.activeColor.other)).stack =
                (s.trial (s.recorded tag) (some ⟨tag, true⟩) healthy).handedOver := by
            simp only [State.onStack, State.setStatus, hn]
            rfl
          by_cases hswap : c.fate .swapProfile = .killed
          · simp only [hswap, if_true, not_true_eq_false, iff_false, Circumstances.outcome]
            exact handedOver_not_works hs htag hhanded
          · simp only [hswap, if_false, not_false_eq_true, iff_true]
            refine outcome_works ?_ id recreates _
            rw [finishing_keeps]
            have hworks := works_of_switched hs htag hhealthy hnew rfl
            rw [← hhanded] at hworks
            exact hworks

/-- **From the version that is built to the end.** -/
theorem starting_works_iff (hs : n.stack.Works) (htag : tag.all (!isLineEnd ·) = true) (hne : tag ≠ [] ∧ tag ≠ "none".toList)
    (request : Request) (changes : Changes) (recreates : Bool) :
    (c.outcome request.id recreates
      (exec c.fate (starting request n.stack.activeColor n.stack.env tag changes) n)).stack.Works ↔
        c.spares changes.compose (tag ∈ n.stack.served) = true := by
  by_cases hstarting : c.fate .starting = .killed
  · simp only [starting, exec, hstarting, if_true, Circumstances.spares, true_or, Bool.or_true, Bool.true_or, decide_true,
      iff_true]
    exact outcome_works hs request.id recreates _
  · by_cases hrecord : c.fate .recordImage = .killed
    · simp only [starting, exec, hstarting, hrecord, if_true, if_false, Circumstances.spares, decide_true, Bool.or_true, iff_true]
      have hsame : (n.setStatus request.id .starting).stack = n.stack := rfl
      exact outcome_works (hsame ▸ hs) request.id recreates _
    · -- the new version is recorded
      have hrecorded : ((n.setStatus request.id .starting).onStack
          (·.setEnv (updateEnvText n.stack.env [(n.stack.activeColor.other.imageKey, tag)]))).stack =
            n.stack.trial (n.stack.recorded tag) (n.stack.container n.stack.activeColor.other) n.stack.healthy := by
        simp [State.onStack, State.setStatus, Stack.trial, Stack.recorded, Stack.setEnv]
      have hup : ((n.setStatus request.id .starting).onStack
          (·.setEnv (updateEnvText n.stack.env [(n.stack.activeColor.other.imageKey, tag)]))).stack.up n.stack.activeColor.other =
            n.stack.trial (n.stack.recorded tag) (some ⟨tag, true⟩) n.stack.healthy := by
        rw [hrecorded, Stack.up_trial]
        exact congrArg (fun image => n.stack.trial (n.stack.recorded tag) (some ⟨image, true⟩) n.stack.healthy)
          (n.stack.image_recorded htag)
      have hidle : (∀ container, n.stack.container n.stack.activeColor.other = some container → container.running = false) ↔
          false = false := ⟨fun _ => rfl, fun _ => hs.other⟩
      have hruns : (∀ container, some (⟨tag, true⟩ : Container) = some container → container.running = false) ↔
          true = false := by simp
      simp only [starting, exec, hstarting, hrecord, if_false, Circumstances.spares, decide_false, Bool.or_self,
        Bool.false_eq_true]
      cases hfate : c.fate .up with
      | killed =>
          simp only [Circumstances.outcome]
          rw [killed_trial_iff hs htag hne hrecorded (fun _ h => h) rfl]
          simp only [decide_eq_true_eq, and_iff_left_iff_imp]
          exact fun _ => .inr hs.other
      | fails => exact undoing_works_iff hs htag hne hrecorded (fun _ h => h) rfl hidle changes recreates
      | done =>
          simp only []
          cases hwait : c.fate .waitHealthy with
          | killed =>
              simp only [Circumstances.outcome]
              rw [killed_trial_iff hs htag hne hup (fun _ h => h) rfl]
              simp
          | fails => exact undoing_works_iff hs htag hne hup (fun _ h => h) rfl hruns changes recreates
          | done =>
              have hhealthy : (((n.setStatus request.id .starting).onStack
                  (·.setEnv (updateEnvText n.stack.env [(n.stack.activeColor.other.imageKey, tag)]))).stack.up
                    n.stack.activeColor.other).becomesHealthy n.stack.activeColor.other =
                      n.stack.trial (n.stack.recorded tag) (some ⟨tag, true⟩) (tag :: n.stack.healthy) := by
                rw [hup, Stack.becomesHealthy_trial]
                rfl
              simp only []
              refine (switching_works_iff hs htag hne hhealthy (fun _ h => List.mem_cons_of_mem _ h) List.mem_cons_self rfl
                request changes recreates).trans ?_
              split
              · simp only [Bool.and_eq_true, decide_eq_true_eq]
              · simp only [Bool.and_eq_true, decide_eq_true_eq, ne_eq, and_assoc]

/-! ### The preparation -/

theorem preparation_keeps (request : Request) (changes : Changes) (s : State) {operation : Operation Op State}
    (h : operation ∈ building request ++ rendering changes) : (operation.effect s).stack = s.stack := by
  rcases List.mem_append.mp h with h | h
  · simp only [building, write, command, List.mem_cons, List.not_mem_nil, or_false] at h
    rcases h with rfl | rfl | rfl | rfl <;> rfl
  · unfold rendering at h
    split at h
    · rw [List.mem_singleton.mp h]
      rfl
    · cases h

theorem applying_keeps (shipped : Shipped) (changes : Changes) (s : State) {operation : Operation Op State}
    (h : operation ∈ applying shipped changes) : (operation.effect s).stack = s.stack := by
  simp only [applying, List.mem_append, List.mem_ite_nil_right, write, command, List.mem_cons, List.not_mem_nil, or_false] at h
  rcases h with (((⟨-, rfl | rfl⟩ | ⟨-, rfl | rfl⟩) | ⟨-, rfl⟩) | ⟨-, rfl⟩) | rfl <;> rfl

theorem applyingOf_keeps (shipped : Option Shipped) (runtime : Runtime) (s : State) {operation : Operation Op State}
    (h : operation ∈ applyingOf shipped runtime) : (operation.effect s).stack = s.stack := by
  cases shipped with
  | none => cases h
  | some shipped => exact applying_keeps shipped _ s h

variable {site : Site} {shipped : Option Shipped} {request : Request}

/-- What is prepared leaves the two colours alone; where the preparation goes through, the version is started. -/
theorem prepared_works_iff (hs : n.stack.Works) {rest : Program Op State} {recreates P : Bool}
    (hrest : ∀ n' : State, n'.stack = n.stack → ((c.outcome id recreates (exec c.fate rest n')).stack.Works ↔ P = true)) :
    (c.outcome id recreates (exec c.fate
      (sequence (building request ++ rendering (changesOf shipped n.runtime))
        (if refused site shipped n.runtime then .ends .threw else sequence (applyingOf shipped n.runtime) rest)) n)).stack.Works ↔
      (!c.prepares site shipped request n || P) = true := by
  have hkept : ∀ taken, taken <+: building request ++ rendering (changesOf shipped n.runtime) →
      (effects taken n).stack = n.stack := fun taken htaken =>
    effects_keep (fun operation hmem s => preparation_keeps request _ s (htaken.subset hmem)) n
  have hworks : ∀ n' : State, n'.stack = n.stack → ∀ ending, (c.outcome id recreates (ending, n')).stack.Works := by
    intro n' hn' ending
    exact outcome_works (hn' ▸ hs) id recreates ending
  have hfalse : ∀ {operations : List (Operation Op State)},
      (∃ operation ∈ operations, operation.passes c.fate = false) → operations.all (·.passes c.fate) = false := by
    rintro operations ⟨operation, hmem, hpasses⟩
    exact List.all_eq_false.mpr ⟨operation, hmem, by simp [hpasses]⟩
  rcases @exec_sequence _ _ c.fate _ (building request ++ rendering (changesOf shipped n.runtime)) n with
    ⟨hall, hexec⟩ | ⟨hstops, taken, htaken, ending, -, hexec⟩
  · rw [hexec]
    have hn₁ := hkept _ (List.prefix_refl _)
    cases hrefused : refused site shipped n.runtime with
    | true =>
        simp only [if_true, exec, Circumstances.prepares, hrefused, Bool.not_true, Bool.and_false, Bool.false_and, Bool.not_false,
          Bool.true_or, iff_true]
        exact hworks _ hn₁ _
    | false =>
        simp only [Bool.false_eq_true, if_false]
        have hkept₂ : ∀ taken, taken <+: applyingOf shipped n.runtime →
            (effects taken (effects (building request ++ rendering (changesOf shipped n.runtime)) n)).stack = n.stack :=
          fun taken htaken =>
            (effects_keep (fun operation hmem s => applyingOf_keeps shipped _ s (htaken.subset hmem)) _).trans hn₁
        rcases @exec_sequence _ _ c.fate rest (applyingOf shipped n.runtime)
            (effects (building request ++ rendering (changesOf shipped n.runtime)) n) with
          ⟨hall₂, hexec₂⟩ | ⟨hstops, taken, htaken, ending, -, hexec₂⟩
        · rw [hexec₂, hrest _ (hkept₂ _ (List.prefix_refl _))]
          simp [Circumstances.prepares, hrefused, List.all_eq_true.mpr hall, List.all_eq_true.mpr hall₂]
        · rw [hexec₂]
          simp only [Circumstances.prepares, hfalse hstops, Bool.and_false, Bool.not_false, Bool.true_or, iff_true]
          exact hworks _ (hkept₂ taken htaken) ending
  · rw [hexec]
    simp only [Circumstances.prepares, hfalse hstops, Bool.false_and, Bool.not_false, Bool.true_or, iff_true]
    exact hworks _ (hkept taken htaken) ending

/-- What becomes of a valid request. -/
theorem update_eq (h : validRequest site request = none) :
    update site shipped request c n =
      c.outcome request.id (if request.source = .rollback then Changes.none else changesOf shipped n.runtime).updaterImage
        (exec c.fate (carryOut site shipped request n) n) := by
  simp only [update, handle, h, exec_orElse, exec_andThen]
  generalize exec c.fate (carryOut site shipped request n) n = result
  generalize (if request.source = .rollback then Changes.none else changesOf shipped n.runtime).updaterImage = recreates
  obtain ⟨ending, n'⟩ := result
  cases ending with
  | killed => simp [Circumstances.outcome]
  | threw =>
      by_cases hfailed : c.fate .failed = .killed <;> simp [Circumstances.outcome, exec, hfailed]
  | returned =>
      cases recreates with
      | false => simp [Circumstances.outcome, exec]
      | true =>
          cases hfate : c.fate .recreateSelf with
          | done => simp [Circumstances.outcome, exec, Program.must, hfate]
          | killed => simp [Circumstances.outcome, exec, Program.must, hfate]
          | fails =>
              by_cases hfailed : c.fate .failed = .killed <;>
                simp [Circumstances.outcome, exec, Program.must, hfate, hfailed]

/-! ### Whole updates -/

/-- A version that may be asked for is one that can be written down. -/
theorem commit_line_end (h : validRequest site request = none) (hsource : request.source ≠ .rollback) :
    (request.commit.take 12).all (!isLineEnd ·) = true ∧ request.commit.take 12 ≠ [] ∧
      request.commit.take 12 ≠ "none".toList := by
  have hcommit : request.commit.length = 40 ∧ request.commit.all isHex = true := by
    unfold validRequest at h
    split at h
    · cases h
    · cases hs : request.source with
      | rollback => exact absurd hs hsource
      | bundle | git | unknown =>
          simp only [hs] at h
          split at h
          · cases h
          · rename_i hcommit
            exact not_not.mp hcommit
  have hlength : (request.commit.take 12).length = 12 := by
    rw [List.length_take, hcommit.1]
    rfl
  refine ⟨List.all_eq_true.mpr fun c hc => ?_, fun heq => ?_, fun heq => ?_⟩
  · have hhex := List.all_eq_true.mp hcommit.2 c (List.mem_of_mem_take hc)
    have hends : (['\n', '\r', '\u2028', '\u2029'].all fun c => !isHex c) = true := by decide +kernel
    cases hend : isLineEnd c with
    | false => rfl
    | true =>
        have hnot := List.all_eq_true.mp hends c (by simpa [isLineEnd] using hend)
        rw [hhex] at hnot
        cases hnot
  · rw [heq] at hlength
    cases hlength
  · rw [heq] at hlength
    cases hlength

/-- **What an update leaves behind**: the node works as before, whatever fails and wherever the updater is killed, if and only if
the circumstances are safe. -/
theorem update_works_iff (site : Site) (shipped : Option Shipped) (request : Request) (c : Circumstances) (hs : n.stack.Works) :
    (update site shipped request c n).stack.Works ↔ c.safe site shipped request n = true := by
  cases hvalid : validRequest site request with
  | some problem =>
      have hworks : (update site shipped request c n).stack.Works := by
        simp only [update, handle, hvalid, exec]
        by_cases hfailed : c.fate .failed = .killed
        · simp only [hfailed, if_true]
          exact hs.recoverInterrupted _ _
        · simp only [hfailed, if_false]
          exact hs
      simp [Circumstances.safe, hvalid, hworks]
  | none =>
      rw [update_eq hvalid]
      by_cases hsource : request.source = .rollback
      · cases hprevious : previousTag n.stack with
        | none =>
            simp only [carryOut, hsource, hprevious, exec, Circumstances.safe, Option.isNone_none, Bool.true_or, if_true,
              Bool.or_true, iff_true]
            exact outcome_works hs _ _ _
        | some tag =>
            have hfound := hprevious
            simp only [previousTag, Option.ite_none_left_eq_some, Option.some.injEq, not_or] at hfound
            obtain ⟨⟨hne, -, hnone⟩, htag⟩ := hfound
            have hserved : tag ∈ n.stack.served := htag ▸ (hs.previous.resolve_left hne).resolve_left hnone
            have hends : tag.all (!isLineEnd ·) = true := by
              rw [← htag, Stack.image]
              cases hread : readEnvFile n.stack.env n.stack.activeColor.other.imageKey with
              | none => rfl
              | some value => exact readEnvFile_line_end hread
            have hstart := starting_works_iff (c := c) hs hends ⟨htag ▸ hne, htag ▸ hnone⟩ request .none false
            simp only [carryOut, hsource, hprevious, if_true, Changes.none]
            simpa [Circumstances.safe, hvalid, hsource, hprevious, Changes.none, hserved] using hstart
      · obtain ⟨hends, hne⟩ := commit_line_end hvalid hsource
        have hcarry : carryOut site shipped request n =
            sequence (building request ++ rendering (changesOf shipped n.runtime))
              (if refused site shipped n.runtime then .ends .threw
                else sequence (applyingOf shipped n.runtime)
                  (starting request n.stack.activeColor n.stack.env (request.commit.take 12) (changesOf shipped n.runtime))) := by
          cases hs : request.source with
          | rollback => exact absurd hs hsource
          | bundle | git | unknown => simp only [carryOut, hs]
        rw [hcarry, if_neg hsource]
        have hsafe : c.safe site shipped request n = (!c.prepares site shipped request n ||
            c.spares (changesOf shipped n.runtime).compose (request.commit.take 12 ∈ n.stack.served)) := by
          simp [Circumstances.safe, hvalid, hsource]
        rw [hsafe]
        refine prepared_works_iff hs fun n' hn' => ?_
        have hstart := starting_works_iff (c := c) (n := n') (hn' ▸ hs) hends hne request (changesOf shipped n.runtime)
          (changesOf shipped n.runtime).updaterImage
        rw [hn'] at hstart
        exact hstart

/-! ### Two updates -/

def settings : Text :=
  "POKYH_IMAGE_BLUE=0123456789ab\nPOKYH_IMAGE_GREEN=\nCOMPOSE_PROFILES=blue,web\n".toList

/-- A node whose blue colour runs its first version. -/
def installed : State where
  stack :=
    { activeFile := some "blue\n".toList
      env := settings
      container := fun color => if color = .blue then some ⟨"0123456789ab".toList, true⟩ else none
      healthy := ["0123456789ab".toList]
      served := ["0123456789ab".toList] }
  status := none
  runtime := ⟨[], none, none, none, none⟩

theorem installed_works : installed.stack.Works := by
  refine ⟨⟨"0123456789ab".toList, by decide, rfl, by decide +kernel⟩, fun container h => ?_, by decide +kernel,
    .inl (by decide +kernel), by decide⟩
  have hnone : installed.stack.container installed.stack.activeColor.other = none := by decide +kernel
  rw [hnone] at h
  cases h

def nodeSite : Site := ⟨[], "/opt/pokyh", fun _ => some true⟩

/-- A build that the cluster has handed over. -/
def bundle : Request :=
  ⟨"01234567-89ab-cdef-0123-456789abcdef".toList, .bundle, List.replicate 40 'c', List.replicate 64 'd', []⟩

/-- Everything succeeds, except what becomes of that operation. -/
def allGoesWell (op : Op) (fate : Fate) : Circumstances := ⟨fun op' => if op' = op then fate else .done, true, true⟩

theorem update_works_iff_installed :
    installed.stack.Works ∧ (update nodeSite none bundle (allGoesWell .recreateSelf .done) installed).stack.Works := by
  refine ⟨installed_works, ?_⟩
  rw [update_works_iff nodeSite none bundle _ installed_works]
  decide +kernel

/-- The updater is killed while it waits for the new version: the recovery removes that colour again, but its version stays
recorded, and a rollback starts it. -/
theorem killed_while_starting :
    installed.stack.Works ∧
      ((update nodeSite none bundle (allGoesWell .waitHealthy .killed) installed).stack.image .green = List.replicate 12 'c' ∧
        previousTag (update nodeSite none bundle (allGoesWell .waitHealthy .killed) installed).stack =
          some (List.replicate 12 'c')) ∧
      ¬ (update nodeSite none bundle (allGoesWell .waitHealthy .killed) installed).stack.Works := by
  refine ⟨installed_works, by decide +kernel, fun h => ?_⟩
  have hprevious := h.previous
  revert hprevious
  unfold Stack.Previous
  decide +kernel

end Pokyh.Node
