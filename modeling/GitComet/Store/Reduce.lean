import GitComet.Store.Commands
import GitComet.Text.Scan

namespace GitComet.Store
open Text

structure RepoFields (w : Surroundings) where
  loadEpoch : ℕ
  localActionsInFlight : ℕ
  rest : w.Repo

structure RepoState (w : Surroundings) extends RepoFields w where
  id : RepoId
  workdir : Chars
  sequencerActionsInFlight : ℕ

inductive AuthRetryOperation (w : Surroundings) where
  | repoCommand (repoId : RepoId) (command : RepoCommandKind w)
  | other (message : w.Message)

structure AuthPromptState (w : Surroundings) where
  kind : AuthPromptKind
  reason : Chars
  operation : AuthRetryOperation w

inductive AppNotificationKind where
  | error | warning | info | success
  deriving DecidableEq

structure AppFields (w : Surroundings) where
  authPrompt : Option (AuthPromptState w)
  gitAvailable : Bool
  notifications : List (AppNotificationKind × Chars)
  rest : w.App

structure AppState (w : Surroundings) extends AppFields w where
  repos : List (RepoState w)
  nextRepoId : RepoId

structure SquashPlan where
  actualHead : CommitId
  head : CommitId
  oldest : CommitId
  oldestParent : CommitId
  commitCount : ℕ
  orderedIds : List CommitId
  deriving DecidableEq

-- What a handler of none of the messages below leaves: it may close repositories, but it has
-- no way to name a counter or to emit a sequencer effect.
structure Outcome (w : Surroundings) where
  app : AppFields w
  repo : RepoState w → RepoFields w
  closed : List RepoId
  effects : List w.Effect

structure Handlers (w : Surroundings) where
  requiresAvailableGit : w.Message → Bool
  handle : w.Message → AppState w → Outcome w
  tabs : Msg w → AppState w → Outcome w
  commandFinished : RepoId → RepoCommandKind w → Except w.Error Unit → AppState w → Outcome w
  operationFinished : RepoId → GitOperationId → GitOperationOuterOutcome → List (Effect w) →
    AppState w → Outcome w
  diagnose : Chars → AppState w → Outcome w
  followAndFinalize : AppState w → Outcome w
  retryMsg : RepoId → w.Command → Option w.Message
  attachAuth : StagedGitAuth → w.Effect → w.Effect
  clearHeadDependentCachedState : w.Repo → w.Repo
  squashPlan : RepoState w → Option SquashPlan
  newOpening : Chars → RepoFields w
  normalizeRepoPath : Chars → Chars
  detectAuthPromptKind : w.Error → Option AuthPromptKind
  formatErrorForUser : w.Error → Chars

variable {w : Surroundings}

def satSucc (n : ℕ) : ℕ := min (n + 1) u32Max

def updateRepo (repoId : RepoId) (f : RepoState w → RepoState w) :
    List (RepoState w) → List (RepoState w)
  | [] => []
  | repo :: repos =>
    if repo.id = repoId then f repo :: repos else repo :: updateRepo repoId f repos

namespace AppState

def repo? (s : AppState w) (repoId : RepoId) : Option (RepoState w) :=
  s.repos.find? fun repo => repo.id = repoId

def update (s : AppState w) (repoId : RepoId) (f : RepoState w → RepoState w) : AppState w :=
  { s with repos := updateRepo repoId f s.repos }

def absorb (s : AppState w) (outcome : Outcome w) : AppState w :=
  { toAppFields := outcome.app
    repos := (s.repos.filter fun repo => repo.id ∉ outcome.closed).map fun repo =>
      { repo with toRepoFields := outcome.repo repo }
    nextRepoId := s.nextRepoId }

def pushRepo (s : AppState w) (workdir : Chars) (fields : RepoFields w) : AppState w :=
  { s with
    repos := s.repos ++ [⟨fields, s.nextRepoId, workdir, 0⟩]
    nextRepoId := s.nextRepoId + 1 }

def maxNotifications : ℕ := 200

def pushNotification (s : AppState w) (kind : AppNotificationKind) (message : Chars) : AppState w :=
  let notifications := s.notifications ++ [(kind, message)]
  { s with notifications := notifications.drop (notifications.length - maxNotifications) }

end AppState

def beginLocalAction (s : AppState w) (repoId : RepoId) : AppState w :=
  s.update repoId fun repo =>
    { repo with localActionsInFlight := satSucc repo.localActionsInFlight }

def trackSequencerEffects (s : AppState w) (effects : List (Effect w)) : AppState w :=
  (effects.filterMap sequencerEffectRepo).foldl
    (fun s repoId => s.update repoId fun repo =>
      { repo with sequencerActionsInFlight := satSucc repo.sequencerActionsInFlight }) s

def sequencerStepBlocked (s : AppState w) (repoId : RepoId) : AppState w × Bool :=
  let busy := (s.repo? repoId).any fun repo => repo.sequencerActionsInFlight > 0
  if busy then
    (s.pushNotification .warning
      "Wait for the running Git operation to finish, then continue or abort.".toList, true)
  else (s, false)

def squashCancelled : Chars :=
  "Squash cancelled: the selected commits are no longer squashable.".toList

variable (h : Handlers w)

def beginHeadChangingLocalAction (s : AppState w) (repoId : RepoId) : AppState w :=
  s.update repoId fun repo =>
    { repo with
      localActionsInFlight := satSucc repo.localActionsInFlight
      rest := h.clearHeadDependentCachedState repo.rest }

def squashCommits (s : AppState w) (repoId : RepoId) (oldest expectedHead : CommitId)
    (message : Chars) (count : ℕ) : AppState w × List (Effect w) :=
  match (s.repo? repoId).bind h.squashPlan with
  | none => (s.pushNotification .warning squashCancelled, [])
  | some plan =>
    if plan.oldest = oldest ∧ plan.head = expectedHead ∧ isBlank message = false then
      if plan.head = plan.actualHead then
        (beginLocalAction s repoId, [.squashCommits repoId oldest expectedHead message count])
      else
        (s, [.loadSquashRebaseSetup repoId plan.oldestParent plan.actualHead plan.orderedIds
          oldest message count])
    else (s.pushNotification .warning squashCancelled, [])

def sequencerStep (s : AppState w) (repoId : RepoId) (effect : Effect w) :
    AppState w × List (Effect w) :=
  let blocked := sequencerStepBlocked s repoId
  if blocked.2 then (blocked.1, []) else (beginLocalAction s repoId, [effect])

def reduceRequest (s : AppState w) : Request w → AppState w × List (Effect w)
  | .mergeRef repoId reference => (beginLocalAction s repoId, [.mergeRef repoId reference])
  | .squashRef repoId reference => (beginLocalAction s repoId, [.squashRef repoId reference])
  | .squashCommits repoId oldest expectedHead message count =>
    squashCommits h s repoId oldest expectedHead message count
  | .reset repoId target mode => (beginLocalAction s repoId, [.reset repoId target mode])
  | .rebase repoId onto => (beginLocalAction s repoId, [.rebase repoId onto])
  | .rebaseContinue repoId => sequencerStep s repoId (.rebaseContinue repoId none)
  | .rebaseAbort repoId => sequencerStep s repoId (.rebaseAbort repoId)
  | .interactiveRebase repoId base entries =>
    (beginLocalAction s repoId, [.interactiveRebase repoId base entries true])
  | .interactiveCherryPick repoId entries =>
    (beginHeadChangingLocalAction h s repoId, [.interactiveCherryPick repoId entries])
  | .cherryPickCommit repoId commitId commit mainline summary =>
    (beginHeadChangingLocalAction h s repoId,
      [.cherryPickCommit repoId commitId commit mainline summary])
  | .revertCommit repoId commitId commit mainline summary =>
    (beginHeadChangingLocalAction h s repoId,
      [.revertCommit repoId commitId commit mainline summary none])
  | .mergeAbort repoId => sequencerStep s repoId (.mergeAbort repoId)
  | .other message =>
    let outcome := h.handle message s
    (s.absorb outcome, outcome.effects.map .other)

def msgRequiresAvailableGit : Request w → Bool
  | .other message => h.requiresAvailableGit message
  | _ => true

def retryMsgForRepoCommand (repoId : RepoId) : RepoCommandKind w → Option (Request w)
  | .mergeRef reference => some (.mergeRef repoId reference)
  | .squashRef reference => some (.squashRef repoId reference)
  | .squashCommits oldest expectedHead message count =>
    some (.squashCommits repoId oldest expectedHead message count)
  | .reset mode target => some (.reset repoId target mode)
  | .rebase onto => some (.rebase repoId onto)
  | .rebaseContinue => some (.rebaseContinue repoId)
  | .rebaseAbort => some (.rebaseAbort repoId)
  | .interactiveRebase .. => some (.rebaseContinue repoId)
  | .interactiveCherryPick _ => some (.rebaseContinue repoId)
  | .cherryPick commitId commit mainline summary =>
    if commit then some (.rebaseContinue repoId)
    else some (.cherryPickCommit repoId commitId commit mainline summary)
  | .revert commitId commit mainline summary =>
    some (.revertCommit repoId commitId commit mainline summary)
  | .mergeAbort => some (.mergeAbort repoId)
  | .other command => (h.retryMsg repoId command).map .other

def retryMsgForAuthOperation : AuthRetryOperation w → Option (Request w)
  | .repoCommand repoId command => retryMsgForRepoCommand h repoId command
  | .other message => some (.other message)

def prepareStagedGitAuth (kind : AuthPromptKind) (username : Option Chars) (secret : Chars) :
    Except Chars StagedGitAuth :=
  let secret := match kind with
    | .hostVerification =>
      let trimmed := trim secret
      if trimmed.map Char.toLower = "yes".toList then "yes".toList else trimmed
    | .usernamePassword | .passphrase => secret
  if isBlank secret then .error "credential/passphrase/confirmation cannot be empty".toList
  else if kind.requiresUsername ∧ isBlank (username.getD []) then
    .error "username cannot be empty".toList
  else .ok ⟨kind, username, secret⟩

def attachGitAuthToEffects (auth : StagedGitAuth) : List (Effect w) → List (Effect w)
  | .rebaseContinue repoId _ :: effects => .rebaseContinue repoId (some auth) :: effects
  | .revertCommit repoId commitId commit mainline summary _ :: effects =>
    .revertCommit repoId commitId commit mainline summary (some auth) :: effects
  | .other effect :: effects => .other (h.attachAuth auth effect) :: effects
  | effects => effects

def authPromptForRepoCommand (repoId : RepoId) (command : RepoCommandKind w) (error : w.Error) :
    Option (AuthPromptState w) := do
  let kind ← h.detectAuthPromptKind error
  let _ ← retryMsgForRepoCommand h repoId command
  some ⟨kind, h.formatErrorForUser error, .repoCommand repoId command⟩

def repoCommandFinished (s : AppState w) (repoId : RepoId) (command : RepoCommandKind w)
    (result : Except w.Error Unit) : AppState w × List (Effect w) :=
  if (s.repo? repoId).isNone then (s, [])
  else
    let released :=
      if commandTouchesSequencerState command then
        s.update repoId fun repo =>
          { repo with sequencerActionsInFlight := repo.sequencerActionsInFlight - 1 }
      else s
    let outcome := h.commandFinished repoId command result released
    (released.absorb outcome, outcome.effects.map .other)

def squashTodo (selectedIds : List CommitId) (rewordId : CommitId) (message : Chars)
    (entry : InteractiveRebaseEntry) : InteractiveRebaseEntry :=
  if entry.commitId = rewordId then
    { entry with action := .reword, newMessage := some message }
  else if entry.commitId ∈ selectedIds then { entry with action := .fixup }
  else entry

def squashReady (actualHead : CommitId) (selectedIds : List CommitId) (rewordId : CommitId)
    (count : ℕ) (entries : List InteractiveRebaseEntry) : Bool :=
  (entries.getLast?.any fun entry => entry.commitId = actualHead) &&
    (entries.any fun entry => entry.commitId = rewordId) &&
    (entries.countP fun entry => entry.commitId = rewordId ∨ entry.commitId ∈ selectedIds) = count

def squashRebaseSetupLoaded (s : AppState w) (repoId : RepoId) (base : Chars)
    (actualHead : CommitId) (selectedIds : List CommitId) (rewordId : CommitId) (message : Chars)
    (count : ℕ) (result : Except w.Error (List InteractiveRebaseEntry)) :
    AppState w × List (Effect w) :=
  if (s.repo? repoId).isNone then (s, [])
  else
    match result with
    | .error error =>
      let text := h.formatErrorForUser error
      ((s.absorb (h.diagnose text s)).pushNotification .error
        ("Failed to load commits for squash rebase: ".toList ++ text), [])
    | .ok entries =>
      if squashReady actualHead selectedIds rewordId count entries then
        (beginLocalAction s repoId,
          [.interactiveRebase repoId base (entries.map (squashTodo selectedIds rewordId message))
            false])
      else (s.pushNotification .warning squashCancelled, [])

def track (reduced : AppState w × List (Effect w)) : AppState w × List (Effect w) :=
  let s := trackSequencerEffects reduced.1 reduced.2
  let outcome := h.followAndFinalize s
  (s.absorb outcome, reduced.2 ++ outcome.effects.map .other)

def loadEpochCurrent (s : AppState w) (repoId : RepoId) (loadEpoch : ℕ) : Bool :=
  (s.repo? repoId).any fun repo => repo.loadEpoch = loadEpoch

def reduceInternal (s : AppState w) : InternalMsg w → AppState w × List (Effect w)
  | .gitOperationFinished repoId operationId outerOutcome message =>
    let reduced := track h (reduceInternal s message)
    let outcome := h.operationFinished repoId operationId outerOutcome reduced.2 reduced.1
    (reduced.1.absorb outcome, reduced.2 ++ outcome.effects.map .other)
  | .repoLoadFinished repoId loadEpoch message =>
    if loadEpochCurrent s repoId loadEpoch then track h (reduceInternal s message) else (s, [])
  | .squashRebaseSetupLoaded repoId base actualHead selectedIds rewordId message count result =>
    squashRebaseSetupLoaded h s repoId base actualHead selectedIds rewordId message count result
  | .repoCommandFinished repoId command result =>
    let authPrompt := match result with
      | .error error => authPromptForRepoCommand h repoId command error
      | .ok _ => none
    let finished := repoCommandFinished h s repoId command result
    match authPrompt with
    | some prompt => ({ finished.1 with authPrompt := some prompt }, finished.2)
    | none => finished
  | .other message =>
    let outcome := h.handle message s
    (s.absorb outcome, outcome.effects.map .other)

def reduceAvailable (s : AppState w) (message : Request w) : AppState w × List (Effect w) :=
  if msgRequiresAvailableGit h message ∧ s.gitAvailable = false then (s, [])
  else reduceRequest h s message

def submitAuthPrompt (s : AppState w) (username : Option Chars) (secret : Chars) :
    AppState w × List (Effect w) :=
  match s.authPrompt with
  | none => (s, [])
  | some prompt =>
    let username := (username.map trim).filter fun name => !name.isEmpty
    match prepareStagedGitAuth prompt.kind username secret with
    | .error error =>
      ({ s.absorb (h.diagnose error s) with authPrompt := some prompt }, [])
    | .ok auth =>
      let taken := { s with authPrompt := none }
      match retryMsgForAuthOperation h prompt.operation with
      | none => (taken, [])
      | some message =>
        let reduced := track h (reduceAvailable h taken message)
        (reduced.1, attachGitAuthToEffects h auth reduced.2)

def openRepo (s : AppState w) (path : Chars) : AppState w × List (Effect w) :=
  let path := h.normalizeRepoPath path
  let outcome := h.tabs (.openRepo path) s
  let s' := s.absorb outcome
  if s.repos.any fun repo => repo.workdir = path then (s', outcome.effects.map .other)
  else (s'.pushRepo path (h.newOpening path), outcome.effects.map .other)

def restoreSession (s : AppState w) (openRepos : List Chars) (activeRepo : Option Chars) :
    AppState w × List (Effect w) :=
  let workdirs := (openRepos.eraseDups.map h.normalizeRepoPath).eraseDups
  let opened := workdirs.foldl (fun s workdir => s.pushRepo workdir (h.newOpening workdir))
    { s with repos := [] }
  let outcome := h.tabs (.restoreSession openRepos activeRepo) opened
  (opened.absorb outcome, outcome.effects.map .other)

def closeRepos (s : AppState w) (message : Msg w) (repoIds : List RepoId) :
    AppState w × List (Effect w) :=
  let kept := { s with repos := s.repos.filter fun repo => repo.id ∉ repoIds }
  let outcome := h.tabs message kept
  (kept.absorb outcome, outcome.effects.map .other)

def reduceInner (s : AppState w) : Msg w → AppState w × List (Effect w)
  | .openRepo path => if s.gitAvailable then openRepo h s path else (s, [])
  | .restoreSession openRepos activeRepo =>
    if s.gitAvailable then restoreSession h s openRepos activeRepo else (s, [])
  | .closeRepo repoId => closeRepos h s (.closeRepo repoId) [repoId]
  | .closeRepos repoIds activateAfter =>
    closeRepos h s (.closeRepos repoIds activateAfter) repoIds
  | .submitAuthPrompt username secret => submitAuthPrompt h s username secret
  | .cancelAuthPrompt => ({ s with authPrompt := none }, [])
  | .request message => reduceAvailable h s message
  | .internal message => reduceInternal h s message

def reduce (s : AppState w) (message : Msg w) : AppState w × List (Effect w) :=
  track h (reduceInner h s message)

end GitComet.Store
