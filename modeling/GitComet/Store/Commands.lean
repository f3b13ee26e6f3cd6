import GitComet.Text.Lines

namespace GitComet.Store

abbrev Chars := List Char
abbrev RepoId := ℕ
abbrev CommitId := Chars
abbrev GitOperationId := ℕ

structure Surroundings where
  Repo : Type
  App : Type
  Command : Type
  Message : Type
  Effect : Type
  Error : Type

inductive ResetMode where
  | soft | mixed | hard
  deriving DecidableEq

inductive InteractiveRebaseAction where
  | pick | reword | squash | fixup | drop
  deriving DecidableEq

structure InteractiveRebaseEntry where
  action : InteractiveRebaseAction
  commitId : CommitId
  summary : Chars
  message : Chars
  newMessage : Option Chars
  deriving DecidableEq

inductive AuthPromptKind where
  | usernamePassword | passphrase | hostVerification
  deriving DecidableEq

def AuthPromptKind.requiresUsername : AuthPromptKind → Bool
  | .usernamePassword => true
  | _ => false

structure StagedGitAuth where
  kind : AuthPromptKind
  username : Option Chars
  secret : Chars
  deriving DecidableEq

variable (w : Surroundings)

inductive RepoCommandKind where
  | mergeRef (reference : Chars)
  | squashRef (reference : Chars)
  | squashCommits (oldest expectedHead : CommitId) (message : Chars) (count : ℕ)
  | reset (mode : ResetMode) (target : Chars)
  | rebase (onto : Chars)
  | rebaseContinue
  | rebaseAbort
  | interactiveRebase (base : Chars) (interactive : Bool)
  | interactiveCherryPick (entries : List InteractiveRebaseEntry)
  | cherryPick (commitId : CommitId) (commit : Bool) (mainline : Option ℕ) (summary : Chars)
  | revert (commitId : CommitId) (commit : Bool) (mainline : Option ℕ) (summary : Chars)
  | mergeAbort
  | other (command : w.Command)

inductive Effect where
  | mergeRef (repoId : RepoId) (reference : Chars)
  | squashRef (repoId : RepoId) (reference : Chars)
  | squashCommits (repoId : RepoId) (oldest expectedHead : CommitId) (message : Chars) (count : ℕ)
  | reset (repoId : RepoId) (target : Chars) (mode : ResetMode)
  | rebase (repoId : RepoId) (onto : Chars)
  | rebaseContinue (repoId : RepoId) (auth : Option StagedGitAuth)
  | rebaseAbort (repoId : RepoId)
  | interactiveRebase (repoId : RepoId) (base : Chars) (entries : List InteractiveRebaseEntry)
    (interactive : Bool)
  | interactiveCherryPick (repoId : RepoId) (entries : List InteractiveRebaseEntry)
  | cherryPickCommit (repoId : RepoId) (commitId : CommitId) (commit : Bool) (mainline : Option ℕ)
    (summary : Chars)
  | revertCommit (repoId : RepoId) (commitId : CommitId) (commit : Bool) (mainline : Option ℕ)
    (summary : Chars) (auth : Option StagedGitAuth)
  | mergeAbort (repoId : RepoId)
  | loadSquashRebaseSetup (repoId : RepoId) (base actualHead : CommitId)
    (selectedIds : List CommitId) (rewordId : CommitId) (message : Chars) (count : ℕ)
  | other (effect : w.Effect)

inductive Request where
  | mergeRef (repoId : RepoId) (reference : Chars)
  | squashRef (repoId : RepoId) (reference : Chars)
  | squashCommits (repoId : RepoId) (oldest expectedHead : CommitId) (message : Chars) (count : ℕ)
  | reset (repoId : RepoId) (target : Chars) (mode : ResetMode)
  | rebase (repoId : RepoId) (onto : Chars)
  | rebaseContinue (repoId : RepoId)
  | rebaseAbort (repoId : RepoId)
  | interactiveRebase (repoId : RepoId) (base : Chars) (entries : List InteractiveRebaseEntry)
  | interactiveCherryPick (repoId : RepoId) (entries : List InteractiveRebaseEntry)
  | cherryPickCommit (repoId : RepoId) (commitId : CommitId) (commit : Bool) (mainline : Option ℕ)
    (summary : Chars)
  | revertCommit (repoId : RepoId) (commitId : CommitId) (commit : Bool) (mainline : Option ℕ)
    (summary : Chars)
  | mergeAbort (repoId : RepoId)
  | other (message : w.Message)

inductive GitOperationOuterOutcome where
  | succeeded | failed | cancelled | timedOut
  deriving DecidableEq

inductive InternalMsg where
  | gitOperationFinished (repoId : RepoId) (operationId : GitOperationId)
    (outerOutcome : GitOperationOuterOutcome) (message : InternalMsg)
  | repoLoadFinished (repoId : RepoId) (loadEpoch : ℕ) (message : InternalMsg)
  | squashRebaseSetupLoaded (repoId : RepoId) (base : Chars) (actualHead : CommitId)
    (selectedIds : List CommitId) (rewordId : CommitId) (message : Chars) (count : ℕ)
    (result : Except w.Error (List InteractiveRebaseEntry))
  | repoCommandFinished (repoId : RepoId) (command : RepoCommandKind w)
    (result : Except w.Error Unit)
  | other (message : w.Message)

inductive Msg where
  | openRepo (path : Chars)
  | restoreSession (openRepos : List Chars) (activeRepo : Option Chars)
  | closeRepo (repoId : RepoId)
  | closeRepos (repoIds : List RepoId) (activateAfter : Option RepoId)
  | submitAuthPrompt (username : Option Chars) (secret : Chars)
  | cancelAuthPrompt
  | request (message : Request w)
  | internal (message : InternalMsg w)

variable {w}

def sequencerEffectRepo : Effect w → Option RepoId
  | .mergeRef repoId _
  | .squashRef repoId _
  | .squashCommits repoId _ _ _ _
  | .reset repoId _ _
  | .rebase repoId _
  | .rebaseContinue repoId _
  | .rebaseAbort repoId
  | .interactiveRebase repoId _ _ _
  | .interactiveCherryPick repoId _
  | .cherryPickCommit repoId _ _ _ _
  | .revertCommit repoId _ _ _ _ _
  | .mergeAbort repoId => some repoId
  | .loadSquashRebaseSetup .. | .other _ => none

def commandTouchesSequencerState : RepoCommandKind w → Bool
  | .other _ => false
  | _ => true

def Effect.completion : Effect w → Option (RepoId × RepoCommandKind w)
  | .mergeRef repoId reference => some (repoId, .mergeRef reference)
  | .squashRef repoId reference => some (repoId, .squashRef reference)
  | .squashCommits repoId oldest expectedHead message count =>
    some (repoId, .squashCommits oldest expectedHead message count)
  | .reset repoId target mode => some (repoId, .reset mode target)
  | .rebase repoId onto => some (repoId, .rebase onto)
  | .rebaseContinue repoId _ => some (repoId, .rebaseContinue)
  | .rebaseAbort repoId => some (repoId, .rebaseAbort)
  | .interactiveRebase repoId base _ interactive =>
    some (repoId, .interactiveRebase base interactive)
  | .interactiveCherryPick repoId entries => some (repoId, .interactiveCherryPick entries)
  | .cherryPickCommit repoId commitId commit mainline summary =>
    some (repoId, .cherryPick commitId commit mainline summary)
  | .revertCommit repoId commitId commit mainline summary _ =>
    some (repoId, .revert commitId commit mainline summary)
  | .mergeAbort repoId => some (repoId, .mergeAbort)
  | .loadSquashRebaseSetup .. | .other _ => none

theorem completion_repo (e : Effect w) : e.completion.map Prod.fst = sequencerEffectRepo e := by
  cases e <;> rfl

end GitComet.Store
