import Kiwi.Lib.CrashFs

/-!
# The file-system steps of a snapshot installation

`install_snapshot` (`raft/state_machine.rs`) replaces the database directory by a staged checkpoint
(`storage/checkpoint.rs`) and then the current snapshot files in the snapshot work directory. A
marker next to the database directory blocks a start in between; a second marker covers the removal
of the first. `installSteps` is the sequence of file-system steps, function by function. An
installation that crashes or fails has taken some of the steps, and a failure before the staged
directory was renamed also removes that directory.

The database directory with everything in it is one file here: the copy is synced file by file and
directory by directory, and its removal destroys it piece by piece before its entry goes.

The last section has the same call as the access gate sees it: with the guard that resumes access on
a failure before the marker, and without the contents of files.
-/

namespace Kiwi.Raft

open CrashFs

/-- From which snapshot a file is. -/
inductive Version where
  | old
  | new
deriving DecidableEq

/-- The directories. -/
inductive Dir where
  /-- The parent of the database directory. -/
  | dbParent
  /-- The parent of the snapshot work directory. -/
  | workParent
  | work
deriving DecidableEq

/-- The entries. -/
inductive Name where
  /-- `db_path`. -/
  | db
  /-- `temp_dir`. -/
  | temp
  /-- `snapshot_install_marker_path`. -/
  | marker
  /-- `snapshot_install_cleanup_marker_path`. -/
  | cleanup
  /-- `snapshot_work_dir`. -/
  | work
  /-- `CURRENT_SNAPSHOT_DATA`. -/
  | data
  /-- `CURRENT_SNAPSHOT_META`. -/
  | metadata
  | dataTmp
  /-- `meta_tmp`. -/
  | metadataTmp
deriving DecidableEq

/-- The files. -/
inductive File where
  | database (version : Version)
  | data (version : Version)
  | metadata (version : Version)
  | marker
  | cleanup
  | work
deriving DecidableEq

/-- The file system of a node. -/
abbrev NodeFs := Fs Dir Name File

/-! ### Steps -/

/-- The file-system steps. -/
inductive FsStep where
  /-- Fail if there is an entry. -/
  | requireAbsent (name : Name)
  | create (dir : Dir) (name : Name) (file : File)
  /-- Create a directory unless it exists. -/
  | createDirAll (dir : Dir) (name : Name) (file : File)
  | syncFile (file : File)
  | syncDir (dir : Dir)
  /-- Begin to remove what is in a directory. -/
  | empty (file : File)
  | remove (dir : Dir) (name : Name)
  | rename (dir : Dir) (source target : Name)

/-- Take a step; `none` if it fails. -/
def FsStep.exec (fs : NodeFs) : FsStep → Option NodeFs
  | requireAbsent name => if fs.current name = none then some fs else none
  | create dir name file => some ((fs.setSynced file false).perform dir [(name, some file)])
  | createDirAll dir name file =>
    if fs.current name = none then some (fs.perform dir [(name, some file)]) else some fs
  | syncFile file => some (fs.setSynced file true)
  | syncDir dir => some (fs.syncDir dir)
  | empty file => some (fs.setSynced file false)
  | remove dir name => some (fs.perform dir [(name, none)])
  | rename dir source target =>
    some (fs.perform dir [(target, fs.current source), (source, none)])

/-- Take steps until one fails. -/
def takeSteps (fs : NodeFs) : List FsStep → NodeFs
  | [] => fs
  | step :: steps =>
    match step.exec fs with
    | some fs => takeSteps fs steps
    | none => fs

def prepareCheckpointRestore : List FsStep :=
  [.create .dbParent .temp (.database .new), .syncDir .dbParent, .syncFile (.database .new),
    .syncDir .dbParent]

def persistInstallMarker : List FsStep :=
  [.requireAbsent .cleanup, .requireAbsent .marker, .create .dbParent .marker .marker,
    .syncFile .marker, .syncDir .dbParent]

/-- `PreparedCheckpointRestore::commit`. -/
def commitRestore : List FsStep :=
  [.empty (.database .old), .remove .dbParent .db, .syncDir .dbParent,
    .rename .dbParent .temp .db, .syncFile (.database .new), .syncDir .dbParent]

def persistCurrentSnapshot : List FsStep :=
  [.createDirAll .workParent .work .work,
    .create .work .dataTmp (.data .new), .syncFile (.data .new),
    .create .work .metadataTmp (.metadata .new), .syncFile (.metadata .new),
    .rename .work .dataTmp .data, .rename .work .metadataTmp .metadata, .syncDir .work]

def removeInstallMarker : List FsStep :=
  [.requireAbsent .cleanup, .create .dbParent .cleanup .cleanup, .syncFile .cleanup,
    .syncDir .dbParent, .remove .dbParent .marker, .syncDir .dbParent,
    .remove .dbParent .cleanup, .syncDir .dbParent]

/-- `install_snapshot`. -/
def installSteps : List FsStep :=
  prepareCheckpointRestore ++ persistInstallMarker ++ commitRestore ++ persistCurrentSnapshot ++
    removeInstallMarker

/-- The drop of a `PreparedCheckpointRestore` that was not committed. -/
def dropPrepared (fs : NodeFs) : NodeFs :=
  if fs.current .temp = none then fs
  else takeSteps fs [.empty (.database .new), .remove .dbParent .temp]

/-! ### Starts -/

/-- `preflight_snapshot_install` rejects: it does so whatever is in the marker. -/
def preflightRejects (entries : Name → Option File) : Prop :=
  entries .marker ≠ none ∨ entries .cleanup ≠ none

instance (entries : Name → Option File) : Decidable (preflightRejects entries) :=
  inferInstanceAs (Decidable (_ ∨ _))

/-- The current snapshot files, if their directory is there. -/
def currentSnapshot (entries : Name → Option File) : Option File × Option File :=
  if entries .work = none then (none, none) else (entries .data, entries .metadata)

/-! ### Before an installation -/

/-- What is known of the snapshot work directory. -/
inductive WorkDir where
  | absent
  /-- It exists and its parent was not synced since. -/
  | unsynced
  /-- It exists and its parent was synced. -/
  | durable
deriving DecidableEq

/-- A node before an installation. -/
structure Before where
  workDir : WorkDir
  /-- Whether there is a current snapshot; it is in the work directory. -/
  hasSnapshot : Bool
  /-- Whether there is a marker of an installation that failed. -/
  hasMarker : Bool
  /-- Whether there is a cleanup marker. -/
  hasCleanup : Bool
deriving DecidableEq

/-- The file system before an installation. -/
def Before.fs (b : Before) : NodeFs where
  durable
    | .db => some (.database .old)
    | .marker => if b.hasMarker then some .marker else none
    | .cleanup => if b.hasCleanup then some .cleanup else none
    | .work => if b.workDir = .durable then some .work else none
    | .data => if b.hasSnapshot ∧ b.workDir ≠ .absent then some (.data .old) else none
    | .metadata => if b.hasSnapshot ∧ b.workDir ≠ .absent then some (.metadata .old) else none
    | .temp | .dataTmp | .metadataTmp => none
  pending := if b.workDir = .unsynced then [⟨.workParent, [(.work, some .work)]⟩] else []
  synced _ := true

/-- The file system after some of the steps, after a crash or an error. -/
def Before.after (b : Before) (completed : List FsStep) (isDropped : Bool) : NodeFs :=
  if isDropped then dropPrepared (takeSteps b.fs completed) else takeSteps b.fs completed

/-! ### The access gate -/

/-- The steps of `install_snapshot` from outside, in order. -/
inductive InstallStep where
  /-- Everything before `request_pause`. -/
  | stage
  | requestPause
  | markerPath
  /-- `persist_install_marker` looks for a cleanup marker. -/
  | checkCleanup
  | createMarker
  | syncMarker
  | disarm
  /-- `prepared.commit()`. -/
  | commit
  | openStorage
  | initCfTracker
  | persistCurrentSnapshot
  /-- `remove_install_marker` creates the cleanup marker. -/
  | createCleanup
  | syncCleanup
  | removeMarker
  | syncRemoval
  | removeCleanup
  | resume
deriving DecidableEq

/-- All steps of a call. -/
def installCall : List InstallStep :=
  [.stage, .requestPause, .markerPath, .checkCleanup, .createMarker, .syncMarker, .disarm, .commit,
    .openStorage, .initCfTracker, .persistCurrentSnapshot, .createCleanup, .syncCleanup,
    .removeMarker, .syncRemoval, .removeCleanup, .resume]

/-- What a call sees and changes. -/
structure InstallState where
  /-- Storage access is paused. -/
  paused : Bool
  /-- The `ResumeBeforeMarkerGuard` is armed. -/
  armed : Bool
  /-- There is a marker. -/
  marker : Bool
  /-- There is a cleanup marker. -/
  cleanup : Bool
deriving DecidableEq

/-- Take a step; `none` if it has to fail, since markers are created with `create_new`. -/
def InstallStep.exec (s : InstallState) : InstallStep → Option InstallState
  | requestPause => some { s with paused := true, armed := true }
  | checkCleanup => if s.cleanup then none else some s
  | createMarker => if s.marker then none else some { s with marker := true }
  | disarm => some { s with armed := false }
  | createCleanup => if s.cleanup then none else some { s with cleanup := true }
  | removeMarker => if s.marker then some { s with marker := false } else none
  | removeCleanup => if s.cleanup then some { s with cleanup := false } else none
  | resume => some { s with paused := false }
  | stage | markerPath | syncMarker | commit | openStorage | initCfTracker | persistCurrentSnapshot
  | syncCleanup | syncRemoval => some s

/-- These cannot fail. -/
def InstallStep.isInfallible : InstallStep → Bool
  | requestPause | disarm | resume => true
  | _ => false

/-- Take steps up to the first that fails, by itself or because something is wrong with it. The
result has the step that failed. -/
def runInstall (wrong : Option InstallStep) (s : InstallState) :
    List InstallStep → Option InstallStep × InstallState
  | [] => (none, s)
  | step :: steps =>
    if wrong = some step ∧ step.isInfallible = false then (some step, s)
    else
      match step.exec s with
      | some s => runInstall wrong s steps
      | none => (some step, s)

/-- `install_snapshot`, with the drop of its guard. -/
def installSnapshot (wrong : Option InstallStep) (s : InstallState) :
    Option InstallStep × InstallState :=
  let (failed, s) := runInstall wrong s installCall
  (failed, if s.armed then { s with paused := false, armed := false } else s)

end Kiwi.Raft
