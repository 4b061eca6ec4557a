import Mathlib.Data.List.SplitOn
import Mathlib.Data.Nat.Notation
import Mathlib.Logic.Basic
import Mathlib.Logic.Relation
import Mathlib.Tactic.SplitIfs

/-!
# Node — ComposePolicy

The check that a stack definition shipped with an update must pass (`checkComposePolicy` of `deploy/node/updater.mjs`), and what
Docker gives the services of a definition.

* `accepted_confines_iff`: **an accepted definition gives no service but the updater more than its list has, if and only if none
  comes to more by what the check does not read** (`Config.Plain`): volumes of another container, driver options, files of configs
  and secrets, build contexts, namespaces of another container, the host's network by its name, device rules and security options.
* `volumes_from_updater`: with `volumes_from` a service has the Docker socket.

The definition is the one that `docker compose config` renders.  Environments, commands, labels, limits and health checks are left
out.
-/

namespace Pokyh.Node

/-- An absolute path, part by part. -/
abbrev Path := List String

/-- `path.resolve`. -/
def resolve (cwd : Path) (path : String) : Path :=
  (path.toList.splitOn '/').foldl
    (fun resolved part =>
      if part = [] ∨ part = ['.'] then resolved
      else if part = ['.', '.'] then resolved.dropLast
      else resolved ++ [String.ofList part])
    (if path.toList.head? = some '/' then [] else cwd)

/-! ### Definitions -/

inductive VolumeType where
  | bind | volume | tmpfs | npipe | cluster | image
  deriving DecidableEq, Repr

structure Volume where
  type : VolumeType
  source : String
  target : String
  deriving DecidableEq, Repr

/-- A container whose volumes or namespace another one takes over. -/
inductive Other where
  | service (name : String)
  | container (name : String)
  deriving DecidableEq, Repr

structure Port where
  target : ℕ
  /-- As `Number` reads it; none when that is no whole number. -/
  published : Option ℕ
  deriving DecidableEq, Repr

structure Service where
  image : Option String
  privileged : Bool
  pid : Option String
  ipc : Option String
  usernsMode : Option String
  uts : Option String
  cgroup : Option String
  networkMode : Option String
  networks : List String
  devices : List String
  deviceCgroupRules : List String
  capAdd : List String
  securityOpt : List String
  volumes : List Volume
  volumesFrom : List Other
  configs : List String
  secrets : List String
  ports : List Port
  /-- The contexts of the image's build, if it is built. -/
  build : List String
  deriving DecidableEq, Repr

/-- The driver of a top-level volume, with its options. -/
structure VolumeDriver where
  driver : String
  driverOpts : List (String × String)
  deriving DecidableEq, Repr

/-- A top-level network, with the name Docker has it under. -/
structure Network where
  external : Bool
  name : String
  deriving DecidableEq, Repr

structure Config where
  services : List (String × Service)
  volumes : List (String × VolumeDriver)
  networks : List (String × Network)
  /-- With the file each is read from, if any. -/
  configs : List (String × Option String)
  secrets : List (String × Option String)
  deriving DecidableEq, Repr

/-! ### The check -/

def allowedServices : List String := ["mysql", "redis", "app-blue", "app-green", "edge", "caddy", "gateway", "updater"]

/-- Host files each service may mount, relative to the installation directory. -/
def allowedBinds (name : String) : List Path :=
  if name = "mysql" then [[".env"]]
  else if name = "app-blue" then [["data", "bootstrap"], ["data", "update"]]
  else if name = "app-green" then [["data", "bootstrap"], ["data", "update"]]
  else if name = "edge" then [["runtime", "edge.mjs"]]
  else if name = "caddy" then [["Caddyfile"]]
  else if name = "gateway" then [["Caddyfile"]]
  else []

def allowedCaps (name : String) : List String :=
  if name = "app-blue" then ["CHOWN", "SETUID", "SETGID"]
  else if name = "app-green" then ["CHOWN", "SETUID", "SETGID"]
  else if name = "caddy" then ["NET_BIND_SERVICE"]
  else []

def published (name : String) : List ℕ :=
  if name = "edge" then [4100] else if name = "caddy" then [80, 443] else if name = "gateway" then [8080] else []

def noNewPrivileges : List String := ["app-blue", "app-green", "edge", "caddy", "gateway", "redis", "updater"]

def problemIf (p : Prop) [Decidable p] (text : String) : List String := if p then [text] else []

@[simp] theorem problemIf_eq_nil {p : Prop} [Decidable p] {text : String} : problemIf p text = [] ↔ ¬ p := by
  by_cases h : p <;> simp [problemIf, h]

variable (cwd : Path) (home : String)

def inside (path : Path) : Bool :=
  let root := resolve cwd home
  path = root || (root ≠ [] && root.isPrefixOf path)

/-- The path from the installation directory, for one in it. -/
def relative (path : Path) : Option Path :=
  if inside cwd home path then some (path.drop (resolve cwd home).length) else none

def dockerSocket (source : String) : Bool := source = "/var/run/docker.sock" || source = "/run/docker.sock"

def volumeProblems (name : String) (volume : Volume) : List String :=
  if volume.type ≠ .bind then []
  else if name = "updater" then
    problemIf (!dockerSocket volume.source && resolve cwd volume.source ≠ resolve cwd home) s!"updater: host path {volume.source}"
  else if dockerSocket volume.source then [s!"{name}: Docker socket"]
  else
    problemIf ((relative cwd home (resolve cwd volume.source)).all (· ∉ allowedBinds name))
      s!"{name}: host path {volume.source}"

def portProblems (name : String) (port : Port) : List String :=
  problemIf (port.target ∉ published name) s!"{name}: publishes {port.target}" ++
    problemIf (port.published.all (· < 1)) s!"{name}: publishes an unspecified host port"

/-- The namespaces that the check asks for by their key. -/
def Service.spaces (service : Service) : List (String × Option String) :=
  [("pid", service.pid), ("ipc", service.ipc), ("userns_mode", service.usernsMode), ("uts", service.uts),
    ("cgroup", service.cgroup)]

def serviceProblems (name : String) (service : Service) : List String :=
  if name ∉ allowedServices then [s!"unknown service {name}"]
  else
    problemIf service.privileged s!"{name}: privileged" ++
    service.spaces.flatMap (fun (key, mode) => problemIf (mode = some "host") s!"{name}: {key}: host") ++
    service.networkMode.toList.flatMap (fun mode =>
      problemIf (mode ≠ "" ∧ ¬ (name = "updater" ∧ mode = "bridge")) s!"{name}: network_mode {mode}") ++
    problemIf (service.devices ≠ []) s!"{name}: devices" ++
    problemIf (service.capAdd.any (· ∉ allowedCaps name)) (let added := String.intercalate "," service.capAdd; s!"{name}: capabilities {added}") ++
    problemIf (name ∈ noNewPrivileges ∧ service.securityOpt.all (· ∉ ["no-new-privileges", "no-new-privileges:true"]))
      s!"{name}: no-new-privileges missing" ++
    problemIf (name = "updater" ∧ service.image ≠ some "pokyh-updater:local") "updater: unexpected image" ++
    service.volumes.flatMap (volumeProblems cwd home name) ++
    service.ports.flatMap (portProblems name)

/-- The list of violations (empty: acceptable). -/
def checkComposePolicy (config : Config) : List String :=
  config.services.flatMap fun (name, service) => serviceProblems cwd home name service

/-! ### What Docker gives a service -/

/-- What decides it outside a definition: the other containers of the host, and what a volume's driver does. -/
structure Docker where
  /-- The service that a container is of, if it is one of the stack. -/
  serviceOf : String → Option String
  /-- What another container has mounted of the host. -/
  mountsOf : String → List Path
  /-- Another container is in the host's own namespace. -/
  onHost : String → Bool
  /-- The paths of the host that a volume with these options stands for. -/
  volumePaths : VolumeDriver → List Path

/-- The kinds of namespaces. -/
inductive Space where
  | pid | ipc | user | uts | cgroup | network
  deriving DecidableEq, Repr

/-- Whose namespace a container is in. -/
inductive Joined where
  | own
  | host
  | other (other : Other)
  deriving DecidableEq, Repr

def joined (mode : Option String) : Joined :=
  match mode with
  | none => .own
  | some mode =>
      if mode = "host" then .host
      else if "service:".toList.isPrefixOf mode.toList then .other (.service (String.ofList (mode.toList.drop 8)))
      else if "container:".toList.isPrefixOf mode.toList then .other (.container (String.ofList (mode.toList.drop 10)))
      else .own

/-- The service may be in the host's network by a network that is it. -/
def Config.hostNetwork (config : Config) (service : Service) : Bool :=
  service.networks.any fun name =>
    (config.networks.lookup name).any fun network => network.external && network.name = "host"

def Config.joined (config : Config) (service : Service) : Space → Joined
  | .pid => Node.joined service.pid
  | .ipc => Node.joined service.ipc
  | .user => Node.joined service.usernsMode
  | .uts => Node.joined service.uts
  | .cgroup => Node.joined service.cgroup
  | .network => if config.hostNetwork service then .host else Node.joined service.networkMode

/-- Options that switch a confinement off. -/
def unconfines (option : String) : Bool :=
  option ∈ ["seccomp:unconfined", "seccomp=unconfined", "apparmor:unconfined", "apparmor=unconfined",
    "systempaths:unconfined", "systempaths=unconfined", "label:disable", "label=disable"]

namespace Config
variable (docker : Docker) (config : Config)

/-- What a volume is of the host. -/
def volumeMounts (volume : Volume) : List Path :=
  match volume.type with
  | .bind => [resolve cwd volume.source]
  | .volume => ((config.volumes.lookup volume.source).map docker.volumePaths).getD []
  | _ => []

/-- The files that configs and secrets are. -/
def files (service : Service) : List Path :=
  (service.configs.filterMap fun name => (config.configs.lookup name).join.map (resolve cwd)) ++
    service.secrets.filterMap fun name => (config.secrets.lookup name).join.map (resolve cwd)

/-- What the service itself mounts of the host. -/
def ownMounts (service : Service) : List Path :=
  service.volumes.flatMap (config.volumeMounts cwd docker) ++ config.files cwd service

/-- The service takes over the volumes of the other. -/
def TakesFrom (name via : String) : Prop :=
  ∃ service, (name, service) ∈ config.services ∧
    (Other.service via ∈ service.volumesFrom ∨
      ∃ container, Other.container container ∈ service.volumesFrom ∧ docker.serviceOf container = some via)

/-- The service takes over the volumes of a container that is none of the stack. -/
def TakesFromStranger (name container : String) : Prop :=
  ∃ service, (name, service) ∈ config.services ∧ Other.container container ∈ service.volumesFrom ∧
    docker.serviceOf container = none

/-- The service has that path of the host mounted. -/
def Mounts (name : String) (path : Path) : Prop :=
  ∃ via, Relation.ReflTransGen (config.TakesFrom docker) name via ∧
    ((∃ service, (via, service) ∈ config.services ∧ path ∈ config.ownMounts cwd docker service) ∨
      ∃ container, config.TakesFromStranger docker via container ∧ path ∈ docker.mountsOf container)

/-- The service has that path of the host mounted, or in its image. -/
def Reaches (name : String) (path : Path) : Prop :=
  config.Mounts cwd docker name path ∨
    ∃ service, (name, service) ∈ config.services ∧ path ∈ service.build.map (resolve cwd)

/-- The service is in the namespace of the other. -/
def Joins (space : Space) (name via : String) : Prop :=
  ∃ service, (name, service) ∈ config.services ∧
    (config.joined service space = .other (.service via) ∨
      ∃ container, config.joined service space = .other (.container container) ∧ docker.serviceOf container = some via)

/-- The service is in the namespace of a container that is none of the stack. -/
def JoinsStranger (space : Space) (name container : String) : Prop :=
  ∃ service, (name, service) ∈ config.services ∧ config.joined service space = .other (.container container) ∧
    docker.serviceOf container = none

/-- The service is in the namespace of the host. -/
def OnHost (space : Space) (name : String) : Prop :=
  ∃ via, Relation.ReflTransGen (config.Joins docker space) name via ∧
    ((∃ service, (via, service) ∈ config.services ∧ config.joined service space = .host) ∨
      ∃ container, config.JoinsStranger docker space via container ∧ docker.onHost container = true)

/-- The two services are in one namespace. -/
def Shares (space : Space) (name name' : String) : Prop :=
  ∃ via via', Relation.ReflTransGen (config.Joins docker space) name via ∧
    Relation.ReflTransGen (config.Joins docker space) name' via' ∧
      (via = via' ∨ ∃ container, config.JoinsStranger docker space via container ∧
        config.JoinsStranger docker space via' container)

end Config

/-- A path of the host that the service may mount. -/
def Allowed (name : String) (path : Path) : Prop := ∃ bind ∈ allowedBinds name, path = resolve cwd home ++ bind

/-- Where Docker listens. -/
def sockets : List Path := [["var", "run", "docker.sock"], ["run", "docker.sock"]]

/-- **No more than the policy names.** -/
structure Config.Confined (docker : Docker) (config : Config) (name : String) (service : Service) : Prop where
  paths : ∀ path, config.Reaches cwd docker name path → Allowed cwd home name path
  socket : ∀ path, config.Reaches cwd docker name path → ∀ socket ∈ sockets, ¬ path <+: socket
  host : ∀ space, ¬ config.OnHost docker space name
  updater : ∀ space, ¬ config.Shares docker space name "updater"
  capabilities : service.privileged = false ∧ ∀ cap ∈ service.capAdd, cap ∈ allowedCaps name
  devices : service.devices = [] ∧ service.deviceCgroupRules = []
  security : ∀ option ∈ service.securityOpt, unconfines option = false
  ports : ∀ port ∈ service.ports, port.target ∈ published name

/-- What the check does not read gives the service nothing. -/
structure Config.Plain (docker : Docker) (config : Config) (name : String) (service : Service) : Prop where
  /-- No driver options stand for a path of the host outside the list. -/
  drivers : ∀ volume ∈ service.volumes, volume.type = .volume →
    ∀ path ∈ config.volumeMounts cwd docker volume, Allowed cwd home name path
  files : ∀ path ∈ config.files cwd service, Allowed cwd home name path
  builds : ∀ context ∈ service.build, Allowed cwd home name (resolve cwd context)
  /-- Nor does it take over a volume from others, over any number of them. -/
  taken : ∀ via, Relation.TransGen (config.TakesFrom docker) name via → ∀ other, (via, other) ∈ config.services →
    ∀ path ∈ config.ownMounts cwd docker other, Allowed cwd home name path
  strangers : ∀ via, Relation.ReflTransGen (config.TakesFrom docker) name via →
    ∀ container, config.TakesFromStranger docker via container → ∀ path ∈ docker.mountsOf container, Allowed cwd home name path
  /-- The host's network is not joined under its name, here or by one whose namespace is shared. -/
  networks : ∀ via, Relation.ReflTransGen (config.Joins docker .network) name via →
    ∀ other, (via, other) ∈ config.services → config.hostNetwork other = false
  /-- Nor is the namespace of a container that is in the host's. -/
  hosts : ∀ space via, Relation.ReflTransGen (config.Joins docker space) name via →
    ∀ container, config.JoinsStranger docker space via container → docker.onHost container = false
  updater : ∀ space, ¬ config.Shares docker space name "updater"
  rules : service.deviceCgroupRules = []
  security : ∀ option ∈ service.securityOpt, unconfines option = false

/-! ### What the check does read -/

variable {cwd : Path} {home : String} {docker : Docker} {config : Config} {name : String} {service : Service}

/-- What an accepted service is like. -/
structure Accepted (cwd : Path) (home : String) (name : String) (service : Service) : Prop where
  privileged : service.privileged = false
  spaces : ∀ entry ∈ service.spaces, entry.2 ≠ some "host"
  network : ∀ mode, service.networkMode = some mode → mode = "" ∨ mode = "bridge"
  devices : service.devices = []
  capabilities : ∀ cap ∈ service.capAdd, cap ∈ allowedCaps name
  binds : name ≠ "updater" → ∀ volume ∈ service.volumes, volume.type = .bind → Allowed cwd home name (resolve cwd volume.source)
  ports : ∀ port ∈ service.ports, port.target ∈ published name

theorem prefix_of_inside {path : Path} (h : inside cwd home path = true) :
    path = resolve cwd home ++ path.drop (resolve cwd home).length := by
  simp only [inside, Bool.or_eq_true, Bool.and_eq_true, decide_eq_true_eq] at h
  rcases h with heq | ⟨-, hinside⟩
  · rw [heq]
    simp
  · obtain ⟨rest, rfl⟩ := List.isPrefixOf_iff_prefix.mp hinside
    simp

theorem allowed_of_volumeProblems {volume : Volume} (h : volumeProblems cwd home name volume = []) (hname : name ≠ "updater")
    (hbind : volume.type = .bind) : Allowed cwd home name (resolve cwd volume.source) := by
  rw [volumeProblems, if_neg (not_not.mpr hbind), if_neg hname] at h
  split at h
  · cases h
  · rw [problemIf_eq_nil, relative] at h
    split at h
    · rename_i hinside
      refine ⟨_, ?_, prefix_of_inside hinside⟩
      simpa using h
    · simp at h

theorem accepted_of_problems (h : serviceProblems cwd home name service = []) : Accepted cwd home name service := by
  unfold serviceProblems at h
  split at h
  · cases h
  · simp only [List.append_eq_nil_iff, problemIf_eq_nil, List.flatMap_eq_nil_iff, Bool.not_eq_true, portProblems] at h
    obtain ⟨⟨⟨⟨⟨⟨⟨⟨hpriv, hspaces⟩, hnet⟩, hdev⟩, hcaps⟩, -⟩, -⟩, hvol⟩, hports⟩ := h
    refine ⟨hpriv, hspaces, fun mode hmode => ?_, by simpa using hdev, ?_,
      fun hname volume hv => allowed_of_volumeProblems (hvol volume hv) hname, fun port hp => ?_⟩
    · have := hnet mode (by simp [hmode])
      by_cases hempty : mode = ""
      · exact .inl hempty
      · exact .inr (not_not.mp fun hb => this ⟨hempty, fun hup => hb hup.2⟩)
    · simpa using hcaps
    · exact not_not.mp (hports port hp).1

theorem accepted (h : checkComposePolicy cwd home config = []) (hs : (name, service) ∈ config.services) :
    Accepted cwd home name service := by
  rw [checkComposePolicy, List.flatMap_eq_nil_iff] at h
  exact accepted_of_problems (h _ hs)

theorem joined_eq_host {mode : Option String} : joined mode = .host ↔ mode = some "host" := by
  unfold joined
  split
  · simp
  · rename_i mode
    split
    · simp_all
    · split
      · simp_all
      · split <;> simp_all

/-- By its modes an accepted service is not on the host. -/
theorem Accepted.not_host (h : Accepted cwd home name service) {space : Space}
    (hnet : space = .network → config.hostNetwork service = false) : config.joined service space ≠ .host := by
  have hspace : ∀ key mode, (key, mode) ∈ service.spaces → joined mode ≠ .host := fun key mode hmem heq =>
    h.spaces _ hmem (joined_eq_host.mp heq)
  cases space with
  | pid => exact hspace "pid" _ (by simp [Service.spaces])
  | ipc => exact hspace "ipc" _ (by simp [Service.spaces])
  | user => exact hspace "userns_mode" _ (by simp [Service.spaces])
  | uts => exact hspace "uts" _ (by simp [Service.spaces])
  | cgroup => exact hspace "cgroup" _ (by simp [Service.spaces])
  | network =>
      simp only [Config.joined, hnet rfl, Bool.false_eq_true, if_false, ne_eq, joined_eq_host]
      intro hmode
      rcases h.network _ hmode with heq | heq
      · exact absurd heq (by decide)
      · exact absurd heq (by decide)

/-- What any service may mount. -/
def binds : List Path := [[".env"], ["data", "bootstrap"], ["data", "update"], ["runtime", "edge.mjs"], ["Caddyfile"]]

theorem allowedBinds_subset (name : String) : allowedBinds name ⊆ binds := by
  unfold allowedBinds
  split_ifs <;> simp [binds]

/-- No path on a list is the Docker socket, or above it. -/
theorem Allowed.not_socket {path : Path} (h : Allowed cwd home name path) {socket : Path} (hs : socket ∈ sockets) :
    ¬ path <+: socket := by
  obtain ⟨bind, hbind, rfl⟩ := h
  intro hprefix
  have hmem : ∀ part ∈ bind, part ∈ socket := fun part hpart => hprefix.subset (List.mem_append_right _ hpart)
  have hnone : ∀ bind ∈ binds, ∀ socket ∈ sockets, ¬ ∀ part ∈ bind, part ∈ socket := by decide
  exact hnone bind (allowedBinds_subset name hbind) socket hs hmem

/-! ### What it does not -/

/-- What an accepted service mounts itself is on its list, as far as the check does not read it. -/
theorem Config.Plain.ownMounts (hplain : config.Plain cwd home docker name service) (h : Accepted cwd home name service)
    (hname : name ≠ "updater") {path : Path} (hpath : path ∈ config.ownMounts cwd docker service) :
    Allowed cwd home name path := by
  rcases List.mem_append.mp hpath with hpath | hpath
  · obtain ⟨volume, hv, hpath⟩ := List.mem_flatMap.mp hpath
    cases htype : volume.type with
    | bind =>
        simp only [Config.volumeMounts, htype, List.mem_singleton] at hpath
        exact hpath ▸ h.binds hname volume hv htype
    | volume => exact hplain.drivers volume hv htype path hpath
    | tmpfs | npipe | cluster | image => simp [Config.volumeMounts, htype] at hpath
  · exact hplain.files path hpath

/-- **An accepted definition gives no service more than the policy names, if and only if what the check does not read gives it
nothing.** -/
theorem accepted_confines_iff (h : checkComposePolicy cwd home config = []) :
    (∀ name service, (name, service) ∈ config.services → name ≠ "updater" →
      config.Confined cwd home docker name service) ↔
        ∀ name service, (name, service) ∈ config.services → name ≠ "updater" → config.Plain cwd home docker name service := by
  constructor
  · intro hconfined name service hs hname
    have hc := hconfined name service hs hname
    have hown : ∀ path ∈ config.ownMounts cwd docker service, Allowed cwd home name path := fun path hpath =>
      hc.paths path (.inl ⟨name, .refl, .inl ⟨service, hs, hpath⟩⟩)
    refine ⟨fun volume hv _ path hpath => ?_, fun path hpath => ?_, fun context hcontext => ?_, fun via hvia other ho path hpath => ?_,
      fun via hvia container hcontainer path hpath => ?_, fun via hvia other ho => ?_, fun space via hvia container hcontainer => ?_,
      hc.updater, hc.devices.2, hc.security⟩
    · exact hown path (List.mem_append_left _ (List.mem_flatMap.mpr ⟨volume, hv, hpath⟩))
    · exact hown path (List.mem_append_right _ hpath)
    · exact hc.paths _ (.inr ⟨service, hs, List.mem_map_of_mem hcontext⟩)
    · exact hc.paths path (.inl ⟨via, hvia.to_reflTransGen, .inl ⟨other, ho, hpath⟩⟩)
    · exact hc.paths path (.inl ⟨via, hvia, .inr ⟨container, hcontainer, hpath⟩⟩)
    · cases hhost : config.hostNetwork other with
      | false => rfl
      | true => exact absurd ⟨via, hvia, .inl ⟨other, ho, by simp [Config.joined, hhost]⟩⟩ (hc.host .network)
    · cases hhost : docker.onHost container with
      | false => rfl
      | true => exact absurd ⟨via, hvia, .inr ⟨container, hcontainer, hhost⟩⟩ (hc.host space)
  · intro hplain name service hs hname
    have hp := hplain name service hs hname
    have ha := accepted h hs
    have hpaths : ∀ path, config.Reaches cwd docker name path → Allowed cwd home name path := by
      rintro path (⟨via, hvia, ⟨other, ho, hpath⟩ | ⟨container, hcontainer, hpath⟩⟩ | ⟨service', hs', hpath⟩)
      · rcases Relation.reflTransGen_iff_eq_or_transGen.mp hvia with rfl | hvia
        · exact (hplain via other ho hname).ownMounts (accepted h ho) hname hpath
        · exact hp.taken via hvia other ho path hpath
      · exact hp.strangers via hvia container hcontainer path hpath
      · obtain ⟨context, hcontext, rfl⟩ := List.mem_map.mp hpath
        exact (hplain name service' hs' hname).builds context hcontext
    refine ⟨hpaths, fun path hpath socket hsocket => (hpaths path hpath).not_socket hsocket, fun space => ?_, hp.updater,
      ⟨ha.privileged, ha.capabilities⟩, ⟨ha.devices, hp.rules⟩, hp.security, ha.ports⟩
    rintro ⟨via, hvia, ⟨other, ho, hjoined⟩ | ⟨container, hcontainer, hhost⟩⟩
    · refine (accepted h ho).not_host (fun hspace => ?_) hjoined
      subst hspace
      exact hp.networks via hvia other ho
    · rw [hp.hosts space via hvia container hcontainer] at hhost
      cases hhost

/-- A definition that has none of the keys the check does not read, with no driver options that stand for a path of the host. -/
def Config.simple (docker : Docker) (config : Config) : Bool :=
  config.services.all (fun (_, service) =>
    service.volumesFrom = [] && service.configs = [] && service.secrets = [] && service.build = [] &&
      service.deviceCgroupRules = [] && service.securityOpt.all (!unconfines ·) && !config.hostNetwork service &&
      [Space.pid, .ipc, .user, .uts, .cgroup, .network].all fun space => config.joined service space = .own) &&
    config.volumes.all fun (_, driver) => docker.volumePaths driver = []

/-- What is so of each service of a simple definition. -/
structure Config.Simple (config : Config) (service : Service) : Prop where
  volumesFrom : service.volumesFrom = []
  configs : service.configs = []
  secrets : service.secrets = []
  build : service.build = []
  rules : service.deviceCgroupRules = []
  security : ∀ option ∈ service.securityOpt, unconfines option = false
  network : config.hostNetwork service = false
  joined : ∀ space, config.joined service space = .own

theorem Config.simple_service (h : config.simple docker = true) (hs : (name, service) ∈ config.services) :
    config.Simple service := by
  simp only [Config.simple, Bool.and_eq_true, List.all_eq_true] at h
  have hservice := h.1 _ hs
  simp only [decide_eq_true_eq, Bool.not_eq_true'] at hservice
  obtain ⟨⟨⟨⟨⟨⟨⟨hfrom, hconfigs⟩, hsecrets⟩, hbuild⟩, hrules⟩, hsecurity⟩, hnetwork⟩, hjoined⟩ := hservice
  refine ⟨hfrom, hconfigs, hsecrets, hbuild, hrules, hsecurity, hnetwork, fun space => hjoined space ?_⟩
  cases space <;> simp

theorem Config.simple_volume (h : config.simple docker = true) {volume : Volume} (htype : volume.type = .volume) :
    config.volumeMounts cwd docker volume = [] := by
  simp only [Config.simple, Bool.and_eq_true, List.all_eq_true, decide_eq_true_eq] at h
  simp only [Config.volumeMounts, htype]
  cases hdriver : config.volumes.lookup volume.source with
  | none => rfl
  | some driver =>
      obtain ⟨before, after, hvolumes, -⟩ := List.lookup_eq_some_iff.mp hdriver
      exact h.2 (volume.source, driver) (by simp [hvolumes])

/-- **An accepted definition without the keys that the check does not read keeps to the policy.** -/
theorem confined_of_simple (h : checkComposePolicy cwd home config = []) (hsimple : config.simple docker = true)
    (hs : (name, service) ∈ config.services) (hname : name ≠ "updater") : config.Confined cwd home docker name service := by
  -- nothing is taken over from anyone, and nobody's namespace joined
  have hfrom : ∀ name via, ¬ config.TakesFrom docker name via := by
    rintro name via ⟨service, hs, hfrom⟩
    rw [(config.simple_service hsimple hs).volumesFrom] at hfrom
    simp at hfrom
  have hstranger : ∀ name container, ¬ config.TakesFromStranger docker name container := by
    rintro name container ⟨service, hs, hfrom, -⟩
    rw [(config.simple_service hsimple hs).volumesFrom] at hfrom
    cases hfrom
  have hjoins : ∀ space name via, ¬ config.Joins docker space name via := by
    rintro space name via ⟨service, hs, hj⟩
    rw [(config.simple_service hsimple hs).joined space] at hj
    simp at hj
  have hjoinsStranger : ∀ space name container, ¬ config.JoinsStranger docker space name container := by
    rintro space name container ⟨service, hs, hj, -⟩
    rw [(config.simple_service hsimple hs).joined space] at hj
    cases hj
  have hstays : ∀ space name via, Relation.ReflTransGen (config.Joins docker space) name via → via = name := by
    intro space name via hvia
    rcases Relation.ReflTransGen.cases_head hvia with heq | ⟨next, hnext, -⟩
    · exact heq.symm
    · exact absurd hnext (hjoins space name next)
  refine (accepted_confines_iff h).mpr (fun name service hs hname => ?_) name service hs hname
  have hservice := config.simple_service hsimple hs
  refine ⟨fun volume _ htype path hpath => ?_, fun path hpath => ?_, fun context hcontext => ?_, fun via hvia => ?_,
    fun via _ container hc => absurd hc (hstranger via container), fun via _ other ho => (config.simple_service hsimple ho).network,
    fun space via _ container hc => absurd hc (hjoinsStranger space via container), fun space => ?_, hservice.rules,
    hservice.security⟩
  · rw [config.simple_volume hsimple htype] at hpath
    cases hpath
  · simp [Config.files, hservice.configs, hservice.secrets] at hpath
  · simp [hservice.build] at hcontext
  · obtain ⟨next, hnext, -⟩ := Relation.TransGen.head'_iff.mp hvia
    exact absurd hnext (hfrom name next)
  · rintro ⟨via, via', hvia, hvia', hsame⟩
    rcases hsame with rfl | ⟨container, hc, -⟩
    · exact hname ((hstays space name via hvia).symm.trans (hstays space _ via hvia'))
    · exact hjoinsStranger space via container hc

/-- A service with nothing but what keeps it from gaining privileges. -/
def hardened : Service where
  image := none
  privileged := false
  pid := none
  ipc := none
  usernsMode := none
  uts := none
  cgroup := none
  networkMode := none
  networks := []
  devices := []
  deviceCgroupRules := []
  capAdd := []
  securityOpt := ["no-new-privileges:true"]
  volumes := []
  volumesFrom := []
  configs := []
  secrets := []
  ports := []
  build := []

def bind (source target : String) : Volume := ⟨.bind, source, target⟩

/-- The updater of the stack. -/
def updaterService : Service :=
  { hardened with
    image := some "pokyh-updater:local"
    networkMode := some "bridge"
    volumes := [bind "/var/run/docker.sock" "/var/run/docker.sock", bind "/opt/pokyh" "/opt/pokyh"] }

/-- A stack of the updater and one colour of the app. -/
def stack (volumesFrom : List Other) : Config where
  services := [
    ("app-blue", { hardened with
      capAdd := ["CHOWN", "SETUID", "SETGID"]
      volumes := [bind "/opt/pokyh/data/bootstrap" "/app/data/bootstrap", bind "/opt/pokyh/data/update" "/app/data/update"]
      volumesFrom := volumesFrom }),
    ("updater", updaterService)]
  volumes := []
  networks := []
  configs := []
  secrets := []

/-- A host with no other containers; volumes with the option `bind` are the directory they name. -/
def plainHost : Docker where
  serviceOf _ := none
  mountsOf _ := []
  onHost _ := false
  volumePaths driver := if driver.driverOpts.lookup "o" = some "bind" then
    ((driver.driverOpts.lookup "device").map (resolve [])).toList else []

theorem accepted_confines_iff_stack :
    checkComposePolicy [] "/opt/pokyh" (stack []) = [] ∧
      ((∀ name service, (name, service) ∈ (stack []).services → name ≠ "updater" →
        (stack []).Confined [] "/opt/pokyh" plainHost name service) ↔
          ∀ name service, (name, service) ∈ (stack []).services → name ≠ "updater" →
            (stack []).Plain [] "/opt/pokyh" plainHost name service) := by
  have haccepted : checkComposePolicy [] "/opt/pokyh" (stack []) = [] := by decide +kernel
  exact ⟨haccepted, accepted_confines_iff haccepted⟩

/-- The app takes over the volumes of the updater: the check accepts it, and the app has the Docker socket. -/
theorem volumes_from_updater :
    checkComposePolicy [] "/opt/pokyh" (stack [.service "updater"]) = [] ∧
      (stack [.service "updater"]).Reaches [] plainHost "app-blue" ["var", "run", "docker.sock"] ∧
      ∃ service, ("app-blue", service) ∈ (stack [.service "updater"]).services ∧
        ¬ (stack [.service "updater"]).Confined [] "/opt/pokyh" plainHost "app-blue" service := by
  have hreaches : (stack [.service "updater"]).Reaches [] plainHost "app-blue" ["var", "run", "docker.sock"] := by
    refine .inl ⟨"updater", .single ⟨_, List.mem_cons_self, .inl List.mem_cons_self⟩, .inl ⟨updaterService, by simp [stack], ?_⟩⟩
    decide +kernel
  refine ⟨by decide +kernel, hreaches, _, List.mem_cons_self, fun hconfined => ?_⟩
  exact hconfined.socket _ hreaches ["var", "run", "docker.sock"] (by simp [sockets]) (List.prefix_refl _)

end Pokyh.Node
