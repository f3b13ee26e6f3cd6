import GitComet.LogPages.Page

namespace GitComet.LogPages

inductive LogPageSeed where
  | head (id : Option ObjectId)
  | tips (ids : List ObjectId)
  deriving DecidableEq

structure Traversal where
  object : ObjectId → Commit
  walk : List ObjectId → HistoryMode → List ObjectId → List ObjectId
  isDateOrder : List ObjectId → HistoryMode → List ObjectId → Bool
  object_id : ∀ id, (object id).id = id
  walk_nil : ∀ mode shallow, walk [] mode shallow = []
  walk_nodup : ∀ tips mode shallow, (walk tips mode shallow).Nodup
  firstParent_resumes : ∀ tip shallow before id after,
    walk [tip] .firstParent shallow = before ++ id :: after → after ≠ [] →
      ∃ parent, (object id).parentIds.head? = some parent ∧
        walk [parent] .firstParent shallow = after

structure LogPageCacheKey where
  mode : HistoryMode
  seed : LogPageSeed
  shallow : List ObjectId
  limit : ℕ
  lastSeen : Option ObjectId
  resumeFrom : Option ObjectId
  author : Option AuthorFilter
  deriving DecidableEq

structure LogPageCacheEntry where
  key : LogPageCacheKey
  page : LogPage
  deriving DecidableEq

structure LogPagedWalkCacheEntry where
  token : ℕ
  mode : HistoryMode
  tips : List ObjectId
  shallow : List ObjectId
  author : Option AuthorFilter
  state : LogPagedWalkState
  dateOrder : Bool
  deriving DecidableEq

structure LogCaches where
  pages : List LogPageCacheEntry
  nextId : ℕ
  walks : List LogPagedWalkCacheEntry
  deriving DecidableEq

structure LogRefs where
  head : Option ObjectId
  branchTips : List ObjectId
  shallow : List ObjectId
  deriving DecidableEq

def logPageCacheLimit : ℕ := 32
def logPageCacheRowLimit : ℕ := 10000
def logPagedWalkCacheLimit : ℕ := 32
def logPagedTopoWalkCacheLimit : ℕ := 4

namespace LogPageCacheKey

def new (mode : HistoryMode) (seed : LogPageSeed) (shallow : List ObjectId) (limit : ℕ)
    (cursor : Option LogCursor) (author : Option AuthorFilter) : LogPageCacheKey where
  mode := mode
  seed := seed
  shallow := shallow
  limit := limit
  lastSeen := cursor.map (·.lastSeen)
  resumeFrom := cursor.bind (·.resumeFrom)
  author := author

end LogPageCacheKey

section

def moveToEnd (key : LogPageCacheKey) (pages : List LogPageCacheEntry) : List LogPageCacheEntry :=
  match pages.find? fun entry => entry.key = key with
  | none => pages
  | some entry => pages.eraseP (fun entry => entry.key = key) ++ [entry]

def cachedLogPage (key : LogPageCacheKey) (pages : List LogPageCacheEntry) :
    Option (LogPage × List LogPageCacheEntry) :=
  (pages.find? fun entry => entry.key = key).map fun entry =>
    let served := moveToEnd key pages
    match entry.page.nextCursor with
    | none => (entry.page, served)
    | some cursor =>
      (entry.page, moveToEnd
        { key with lastSeen := some cursor.lastSeen, resumeFrom := cursor.resumeFrom } served)

def rows (pages : List LogPageCacheEntry) : ℕ :=
  (pages.map fun entry => entry.page.commits.length).sum

def evictPages (incoming : ℕ) : List LogPageCacheEntry → List LogPageCacheEntry
  | [] => []
  | entry :: pages =>
    if logPageCacheLimit ≤ pages.length + 1 ∨
        logPageCacheRowLimit < rows (entry :: pages) + incoming then
      evictPages incoming pages
    else entry :: pages

def storeLogPage (key : LogPageCacheKey) (page : LogPage) (pages : List LogPageCacheEntry) :
    List LogPageCacheEntry :=
  if logPageCacheRowLimit < page.commits.length then pages
  else
    evictPages page.commits.length (pages.eraseP fun entry => entry.key = key) ++ [⟨key, page⟩]

end

section

def isWalk (token : ℕ) (mode : HistoryMode) (tips shallow : List ObjectId)
    (author : Option AuthorFilter) (entry : LogPagedWalkCacheEntry) : Bool :=
  entry.token = token ∧ entry.mode = mode ∧ entry.tips = tips ∧ entry.shallow = shallow ∧
    entry.author = author

def takeLogPagedWalk (token : ℕ) (mode : HistoryMode) (tips shallow : List ObjectId)
    (author : Option AuthorFilter) (walks : List LogPagedWalkCacheEntry) :
    Option (LogPagedWalkState × List LogPagedWalkCacheEntry) :=
  (walks.find? (isWalk token mode tips shallow author)).map fun entry =>
    (entry.state, walks.eraseP (isWalk token mode tips shallow author))

def evictDateOrder : ℕ → List LogPagedWalkCacheEntry → List LogPagedWalkCacheEntry
  | 0, walks => walks
  | fuel + 1, walks =>
    if logPagedTopoWalkCacheLimit ≤ walks.countP (·.dateOrder) then
      evictDateOrder fuel (walks.eraseP (·.dateOrder))
    else walks

def makeRoom (dateOrder : Bool) (walks : List LogPagedWalkCacheEntry) :
    List LogPagedWalkCacheEntry :=
  let walks := if logPagedWalkCacheLimit ≤ walks.length then walks.drop 1 else walks
  if dateOrder then evictDateOrder walks.length walks else walks

end

variable (t : Traversal)

def newLogPagedWalk (tips : List ObjectId) (mode : HistoryMode) (shallow : List ObjectId) :
    LogPagedWalkState :=
  ⟨[], (t.walk tips mode shallow).map t.object⟩

def firstParentResumeHint (mode : HistoryMode) (commit : Commit) : Option ObjectId :=
  if mode = .firstParent then commit.parentIds.head? else none

def startWalk (mode : HistoryMode) (tips shallow : List ObjectId) (cursor : Option LogCursor)
    (author : Option AuthorFilter) (walks : List LogPagedWalkCacheEntry) :
    LogPagedWalkState × CursorGate × List LogPagedWalkCacheEntry :=
  match (cursor.bind (·.resumeToken)).bind fun token =>
    takeLogPagedWalk token mode tips shallow author walks with
  | some (state, walks) => (state, CursorGate.opened, walks)
  | none =>
    match if mode = .firstParent then cursor.bind (·.resumeFrom) else none with
    | some tip => (newLogPagedWalk t [tip] mode shallow, CursorGate.opened, walks)
    | none => (newLogPagedWalk t tips mode shallow, CursorGate.new cursor, walks)

def logPagedPage (mode : HistoryMode) (tips shallow : List ObjectId) (limit : ℕ)
    (cursor : Option LogCursor) (author : Option AuthorFilter) (caches : LogCaches) :
    LogPage × LogCaches :=
  if tips.isEmpty then (emptyLogPage, caches)
  else
    let started := startWalk t mode tips shallow cursor author caches.walks
    let built := logPageFromPagedWalkState mode author limit started.1 started.2.1
    match if built.hasMore then built.commits.getLast? else none with
    | none => (⟨built.commits, none⟩, { caches with walks := started.2.2 })
    | some commit =>
      let dateOrder := t.isDateOrder tips mode shallow
      (⟨built.commits, some ⟨commit.id, firstParentResumeHint mode commit, some caches.nextId⟩⟩,
        { caches with
          nextId := caches.nextId + 1
          walks := makeRoom dateOrder started.2.2 ++
            [⟨caches.nextId, mode, tips, shallow, author, built.state, dateOrder⟩] })

def pageSeed (mode : HistoryMode) (refs : LogRefs) : LogPageSeed :=
  if mode = .allBranches then .tips refs.branchTips else .head refs.head

def LogPageSeed.tipIds : LogPageSeed → List ObjectId
  | .head none => []
  | .head (some id) => [id]
  | .tips ids => ids

def logHistoryModePage (mode : HistoryMode) (author : Option (List Char)) (limit : ℕ)
    (cursor : Option LogCursor) (refs : LogRefs) (caches : LogCaches) : LogPage × LogCaches :=
  if limit = 0 then (emptyLogPage, caches)
  else
    let author := AuthorFilter.new author
    let seed := pageSeed mode refs
    let key := LogPageCacheKey.new mode seed refs.shallow limit cursor author
    match cachedLogPage key caches.pages with
    | some (page, pages) => (page, { caches with pages := pages })
    | none =>
      let paged := logPagedPage t mode seed.tipIds refs.shallow limit cursor author caches
      (paged.1, { paged.2 with pages := storeLogPage key paged.1 paged.2.pages })

end GitComet.LogPages
