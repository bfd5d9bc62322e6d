import PracticalCrypto.Library.Substitution
import PracticalCrypto.Surf.Demo.OutputFiles
import Mathlib.Data.List.Nodup

/-!
# The page of the demo

The demo fetches a page and then, one round at a time, the assets of the page
(`surf-impl/src/demo/demo.b.cpp`). Each body is stored in a file whose name is made from the path
of the asset, and after each round the page is rendered again from the manifest: the references
to what has been fetched are replaced by the files, one reference after the other.

The name of a file does not have all of the path, so that assets can share a file. A reference is
replaced wherever its text is in the page, also inside of other references and of the names that
earlier replacements have put there. The page is right, for every text of the page, exactly if
none of this can happen.
-/

namespace PracticalCrypto.Surf.Demo

open TextSearch HttpText Substitution

section Model

def isAlnum (c : UInt8) : Bool := isDigit c ∨ 65 ≤ c ∧ c ≤ 90 ∨ 97 ≤ c ∧ c ≤ 122

def localName (path : Text) : Text :=
  let name := if path.head? = some 47 then path.drop 1 else path
  let name := name.takeWhile (· ∉ ascii "?#")
  let name := if name = [] then ascii "index" else name
  name.map fun c => if isAlnum c ∨ c = 46 ∨ c = 45 ∨ c = 95 then c else 95

/-- The output directory. A file that is missing is read as an empty one. -/
structure Outdir where
  assets : Text
  cursor : ℕ
  manifest : Text
  /-- The files in `raw/` by name. -/
  raw : Text → Text
  index : Text

def extractBody (response : Text) : Text :=
  match find (crlf ++ crlf) response with
  | none => []
  | some position => response.drop (position + 4)

/-- What a GET through the verifier returns if it works. -/
structure GetResult where
  response : Text
  records : UInt64
  blocks : UInt64

def pageName : Text := ascii "page.html"

/-- The replacements of `render_page`. The entry of the page itself has no reference. -/
def substituteItems (items : List Fetched) (html : Text) : Text :=
  items.foldl
    (fun html f =>
      if f.rawRef = [] then html else replaceAll f.rawRef (ascii "raw/" ++ f.localFile) html)
    html

/-- The banner comes after the tag of the body, or first. -/
def insertBar (bar html : Text) : Text :=
  match (find (ascii "<body") html).bind fun body => findFrom (ascii ">") body html with
  | none => bar ++ html
  | some close => html.take (close + 1) ++ bar ++ html.drop (close + 1)

/-- The page when nothing has been fetched. -/
def waitingPage (bar : Text) : Text :=
  ascii "<!doctype html><meta charset=\"utf-8\"><title>SURF</title>" ++
    ascii "<body style=\"margin:0;background:#f6f7fb;\">" ++ bar ++
    ascii "<div style=\"padding:40px;font:15px/1.6 system-ui,sans-serif;" ++
    ascii "color:#555;\">Waiting for the first response&hellip;</div></body>"

def refreshTag : Text := ascii "<meta http-equiv=\"refresh\" content=\"2\">"

def renderHtml (bar : Text) (items : List Fetched) (expected : ℕ) (html : Text) : Text :=
  let page := if html = [] then waitingPage bar else insertBar bar (substituteItems items html)
  if 0 < expected ∧ expected ≤ items.length then page else refreshTag ++ page

/-- The entry of the manifest for a body. -/
def fetched (path rawRef localFile : Text) (r : GetResult) : Fetched :=
  { path, rawRef, localFile, bytes := .ofNat (extractBody r.response).length,
    records := r.records, blocks := r.blocks }

/-- A body is stored and noted, and the cursor is moved. -/
def Outdir.store (dir : Outdir) (asset : Asset) (r : GetResult) : Outdir :=
  let localFile := localName asset.path
  { dir with
    raw := Function.update dir.raw localFile (extractBody r.response)
    manifest := appendManifest dir.manifest (fetched asset.path asset.rawRef localFile r)
    cursor := dir.cursor + 1 }

/-- The page is stored and noted, and the queue is written. -/
def Outdir.storePage (dir : Outdir) (path : Text) (assets : List Asset) (r : GetResult) : Outdir :=
  { dir with
    raw := Function.update dir.raw pageName (extractBody r.response)
    manifest := appendManifest dir.manifest (fetched path [] pageName r)
    assets := writeQueue assets
    cursor := 0 }

def emptyDir : Outdir :=
  { assets := [], cursor := 0, manifest := [], raw := fun _ => [], index := [] }

variable (banner : List Fetched → ℕ → Text → Text)

/-- The page is rendered with some banner. If the manifest cannot be read, an exception ends the
process before anything is written. -/
def renderPage (dir : Outdir) (expected : ℕ) (current : Text) : Outdir :=
  match readManifest dir.manifest with
  | none => dir
  | some items =>
      let bar := banner items expected current
      { dir with index := renderHtml bar items expected (dir.raw pageName) }

/-- The first round, if its GET works, in an empty directory. `assets` are the assets that the
parser finds in the page. -/
def demoFullRound (path : Text) (assets : List Asset) (r : GetResult) : Outdir :=
  let dir := renderPage banner emptyDir 0 path
  renderPage banner (dir.storePage path assets r) (1 + assets.length)
    ((assets.head?.map Asset.path).getD [])

/-- A later round. It changes nothing if all assets have been fetched, and also if it gets
nothing: the handoff cannot be loaded, the GET fails or the body cannot be stored. -/
def demoResumedRound (dir : Outdir) (result : Option GetResult) : Outdir :=
  let queue := readQueue dir.assets
  match queue[dir.cursor]?, result with
  | some asset, some r =>
      renderPage banner (dir.store asset r) (1 + queue.length)
        ((queue[dir.cursor + 1]?.map Asset.path).getD [])
  | _, _ => dir

/-- The path of a request, which has neither tabs nor line breaks. -/
structure RequestPath where
  text : Text
  isPath : 9 ∉ text ∧ 10 ∉ text

def demoRun (path : RequestPath) (assets : List Asset) (page : GetResult)
    (results : List (Option GetResult)) : Outdir :=
  results.foldl (demoResumedRound banner) (demoFullRound banner path.text assets page)

end Model

section Specification

/-- The queue that the rounds work on. -/
def queueOf (assets : List Asset) : List Asset := readQueue (writeQueue assets)

def localNames (queue : List Asset) : List Text := queue.map fun asset => localName asset.path

/-- The references and the files that come in their place. -/
def replacements (queue : List Asset) : List (Text × Text) :=
  queue.map fun asset => (asset.rawRef, ascii "raw/" ++ localName asset.path)

/-- The bodies in the order in which they were fetched. -/
def bodies (results : List (Option GetResult)) : List Text :=
  results.reduceOption.map fun r => extractBody r.response

/-- Every asset has a file of its own with its body, and the page has the files in place of the
references. -/
structure IsShown (banner : List Fetched → ℕ → Text → Text) (queue : List Asset) (html : Text)
    (bodies : List Text) (dir : Outdir) : Prop where
  own : (localNames queue).Nodup
  stored : ∀ i : Fin queue.length, bodies[i]? = some (dir.raw (localName queue[i].path))
  rendered : ∃ items expected current, readManifest dir.manifest = some items ∧
    dir.index = renderHtml (banner items expected current) items expected (dir.raw pageName) ∧
    Substitutes (replacements queue) html (substituteItems items (dir.raw pageName))

/-- Whatever the bodies are, the page is right when all assets have been fetched. -/
def AlwaysShown (banner : List Fetched → ℕ → Text → Text) (path : RequestPath)
    (assets : List Asset) : Prop :=
  ∀ page results, (demoRun banner path assets page results).cursor = (queueOf assets).length →
    IsShown banner (queueOf assets) (extractBody page.response) (bodies results)
      (demoRun banner path assets page results)

/-- The names of the files are different, and the references can be replaced one by one. -/
structure IsShowable (queue : List Asset) : Prop where
  own : (localNames queue).Nodup
  notPage : pageName ∉ localNames queue
  plain : ∀ asset ∈ queue, asset.rawRef ≠ [] ∧ 9 ∉ asset.rawRef
  independent : Independent (replacements queue)

instance decidableIsShowable (queue : List Asset) : Decidable (IsShowable queue) :=
  decidable_of_iff ((localNames queue).Nodup ∧ pageName ∉ localNames queue ∧
      (∀ asset ∈ queue, asset.rawRef ≠ [] ∧ 9 ∉ asset.rawRef) ∧ Independent (replacements queue))
    ⟨fun all => ⟨all.1, all.2.1, all.2.2.1, all.2.2.2⟩, fun showable =>
      ⟨showable.own, showable.notPage, showable.plain, showable.independent⟩⟩

end Specification

section Run

variable {banner : List Fetched → ℕ → Text → Text} {path : RequestPath} {assets : List Asset}
  {page r : GetResult} {done : List GetResult} {dir : Outdir}

/-- The entries of the manifest when some of the assets have been fetched. -/
def entries (queue : List Asset) (path : Text) (page : GetResult) (done : List GetResult) :
    List Fetched :=
  fetched path [] pageName page :: (queue.zip done).map fun pair =>
    fetched pair.1.path pair.1.rawRef (localName pair.1.path) pair.2

/-- The files that have been written. -/
def writes (queue : List Asset) (done : List GetResult) : List (Text × Text) :=
  (queue.zip done).map fun pair => (localName pair.1.path, extractBody pair.2.response)

/-- The files when some of the assets have been fetched. -/
def storedFiles (queue : List Asset) (page : GetResult) (done : List GetResult) : Text → Text :=
  (writes queue done).foldl (fun raw write => Function.update raw write.1 write.2)
    (Function.update (fun _ => []) pageName (extractBody page.response))

/-- The page that can be seen is made of what is stored. -/
def IsRendered (banner : List Fetched → ℕ → Text → Text) (dir : Outdir) : Prop :=
  ∀ items, readManifest dir.manifest = some items → ∃ expected current,
    dir.index = renderHtml (banner items expected current) items expected (dir.raw pageName)

/-- The state of the directory after the given results. -/
structure Progress (banner : List Fetched → ℕ → Text → Text) (path : RequestPath)
    (assets : List Asset) (page : GetResult) (done : List GetResult) (dir : Outdir) : Prop where
  isQueue : dir.assets = writeQueue assets
  cursor : dir.cursor = done.length
  within : done.length ≤ (queueOf assets).length
  manifest : dir.manifest =
    lineText ((entries (queueOf assets) path.text page done).map manifestLine)
  raw : dir.raw = storedFiles (queueOf assets) page done
  rendered : IsRendered banner dir

theorem renderPage_eq (banner : List Fetched → ℕ → Text → Text) (dir : Outdir) (expected : ℕ)
    (current : Text) :
    ∃ index, renderPage banner dir expected current = { dir with index } ∧
      IsRendered banner { dir with index } := by
  rw [renderPage]
  cases read : readManifest dir.manifest with
  | none => exact ⟨dir.index, rfl, fun items isRead => by simp [read] at isRead⟩
  | some items =>
      refine ⟨_, rfl, ?_⟩
      intro others isRead
      obtain rfl : items = others := by simpa [read] using isRead
      exact ⟨expected, current, rfl⟩

theorem zip_concat {α β : Type*} {xs : List α} {ys : List β} {x : α} (y : β)
    (next : xs[ys.length]? = some x) : xs.zip (ys ++ [y]) = xs.zip ys ++ [(x, y)] := by
  induction ys generalizing xs with
  | nil =>
      cases xs <;> simp_all
  | cons z ys ih =>
      cases xs with
      | nil => simp at next
      | cons w xs => simp_all

theorem take_append_take {α : Type*} (count : ℕ) (xs ys : List α) :
    (xs.take count ++ ys).take count = (xs ++ ys).take count := by
  rcases Nat.le_total xs.length count with short | long
  · rw [List.take_of_length_le short]
  · rw [List.take_append_of_le_length (by simp [long]), List.take_append_of_le_length long,
      List.take_take, Nat.min_self]

theorem progress_full :
    Progress banner path assets page [] (demoFullRound banner path.text assets page) := by
  rw [demoFullRound]
  rcases renderPage_eq banner emptyDir 0 path.text with ⟨waiting, isFirst, -⟩
  rw [isFirst]
  rcases renderPage_eq banner (Outdir.storePage { emptyDir with index := waiting } path.text assets
    page) (1 + assets.length) ((assets.head?.map Asset.path).getD []) with
    ⟨index, isResult, rendered⟩
  rw [isResult]
  refine ⟨rfl, rfl, Nat.zero_le _, ?_, ?_, rendered⟩
  · simp [Outdir.storePage, emptyDir, entries, appendManifest, lineText]
  · simp [Outdir.storePage, emptyDir, storedFiles, writes]

theorem demoResumedRound_none : demoResumedRound banner dir none = dir := by
  rw [demoResumedRound]
  simp

theorem demoResumedRound_of_done {result : Option GetResult}
    (last : (readQueue dir.assets)[dir.cursor]? = none) :
    demoResumedRound banner dir result = dir := by
  rw [demoResumedRound]
  simp [last]

theorem demoResumedRound_of_next {asset : Asset} (r : GetResult)
    (next : (readQueue dir.assets)[dir.cursor]? = some asset) :
    ∃ index, demoResumedRound banner dir (some r) = { dir.store asset r with index } ∧
      IsRendered banner { dir.store asset r with index } := by
  simp only [demoResumedRound, next]
  exact renderPage_eq ..

theorem Progress.store {asset : Asset} (progress : Progress banner path assets page done dir)
    (next : (queueOf assets)[done.length]? = some asset) (r : GetResult) {index : Text}
    (rendered : IsRendered banner { dir.store asset r with index }) :
    Progress banner path assets page (done ++ [r]) { dir.store asset r with index } := by
  have zipped := zip_concat r next
  refine ⟨progress.isQueue, ?_, ?_, ?_, ?_, rendered⟩
  · simp [Outdir.store, progress.cursor]
  · rw [List.length_append]
    exact (List.getElem?_eq_some_iff.mp next).1
  · simp only [Outdir.store, progress.manifest, appendManifest_lineText]
    simp [entries, zipped]
  · simp [Outdir.store, progress.raw, storedFiles, writes, zipped]

/-- A round that gets a response fetches the next asset, if there is one. -/
theorem Progress.fetched (progress : Progress banner path assets page done dir) (r : GetResult) :
    Progress banner path assets page ((done ++ [r]).take (queueOf assets).length)
      (demoResumedRound banner dir (some r)) := by
  have isQueue : readQueue dir.assets = queueOf assets := by
    rw [progress.isQueue]
    rfl
  cases next : (queueOf assets)[done.length]? with
  | none =>
      have isLast : done.length = (queueOf assets).length :=
        Nat.le_antisymm progress.within (List.getElem?_eq_none_iff.mp next)
      rw [demoResumedRound_of_done (by rw [isQueue, progress.cursor, next]), ← isLast,
        List.take_left]
      exact progress
  | some asset =>
      rcases demoResumedRound_of_next r (by rw [isQueue, progress.cursor, next]) with
        ⟨index, isResult, rendered⟩
      have stored := progress.store next r rendered
      rw [isResult, List.take_of_length_le stored.within]
      exact stored

/-- After all rounds, the assets that have been fetched are the first ones, each with the
response that a round got for it. -/
theorem progress_run (banner : List Fetched → ℕ → Text → Text) (path : RequestPath)
    (assets : List Asset) (page : GetResult) (results : List (Option GetResult)) :
    Progress banner path assets page (results.reduceOption.take (queueOf assets).length)
      (demoRun banner path assets page results) := by
  have run (dir : Outdir) (done : List GetResult)
      (progress : Progress banner path assets page done dir) :
      Progress banner path assets page ((done ++ results.reduceOption).take (queueOf assets).length)
        (results.foldl (demoResumedRound banner) dir) := by
    induction results generalizing dir done with
    | nil => simpa [List.take_of_length_le progress.within] using progress
    | cons result results ih =>
        cases result with
        | none => simpa [demoResumedRound_none] using ih _ _ progress
        | some r =>
            have later := ih _ _ (progress.fetched r)
            rw [take_append_take] at later
            simpa using later
  exact run _ [] progress_full

end Run

section Files

variable {queue : List Asset} {page : GetResult} {done : List GetResult} {path body : Text}

theorem of_mem_localName {c : UInt8} (inside : c ∈ localName path) :
    isAlnum c ∨ c = 46 ∨ c = 45 ∨ c = 95 := by
  rcases List.mem_map.mp inside with ⟨d, -, rfl⟩
  split
  case isTrue ok => exact ok
  case isFalse => simp

theorem localName_plain (path : Text) : 9 ∉ localName path ∧ 10 ∉ localName path :=
  ⟨fun inside => absurd (of_mem_localName inside) (by decide),
    fun inside => absurd (of_mem_localName inside) (by decide)⟩

theorem fetched_isPlain {asset : Asset} (r : GetResult)
    (plain : 9 ∉ asset.path ∧ 10 ∉ asset.path ∧ 10 ∉ asset.rawRef) (noTab : 9 ∉ asset.rawRef) :
    (fetched asset.path asset.rawRef (localName asset.path) r).IsPlain := by
  simp [Fetched.IsPlain, fetched, plain, noTab, localName_plain]

section Updates

variable {α β : Type*} [DecidableEq α] {files : α → β} {updates : List (α × β)} {name : α}
  {value : β}

theorem foldl_update_of_not_mem (absent : name ∉ updates.map Prod.fst) :
    updates.foldl (fun files write => Function.update files write.1 write.2) files name =
      files name := by
  induction updates generalizing files with
  | nil => rfl
  | cons write updates ih =>
      rw [List.map_cons, List.mem_cons, not_or] at absent
      rw [List.foldl_cons, ih absent.2, Function.update_of_ne absent.1]

theorem foldl_update_of_mem (isWrite : name ∈ updates.map Prod.fst)
    (isValue : ∀ write ∈ updates, write.1 = name → write.2 = value) :
    updates.foldl (fun files write => Function.update files write.1 write.2) files name =
      value := by
  induction updates generalizing files with
  | nil => simp at isWrite
  | cons write updates ih =>
      by_cases later : name ∈ updates.map Prod.fst
      · exact ih later fun other isOther => isValue other (by simp [isOther])
      · have same : write.1 = name := by
          rw [List.map_cons, List.mem_cons] at isWrite
          exact (isWrite.resolve_right later).symm
        rw [List.foldl_cons, foldl_update_of_not_mem later, ← same, Function.update_self]
        exact isValue write (by simp) same

end Updates

theorem map_fst_writes (all : done.length = queue.length) :
    (writes queue done).map Prod.fst = localNames queue := by
  have paths : (queue.zip done).map Prod.fst = queue := List.map_fst_zip (by omega)
  rw [writes, localNames, List.map_map]
  conv_rhs => rw [← paths, List.map_map]
  rfl

theorem storedFiles_of_not_mem (all : done.length = queue.length) {name : Text}
    (absent : name ∉ localNames queue) :
    storedFiles queue page done name =
      Function.update (fun _ => []) pageName (extractBody page.response) name := by
  apply foldl_update_of_not_mem
  rwa [map_fst_writes all]

theorem storedFiles_getElem (all : done.length = queue.length) (own : (localNames queue).Nodup)
    (i : Fin queue.length) :
    (done.map fun r => extractBody r.response)[i]? =
      some (storedFiles queue page done (localName queue[i].path)) := by
  have inside : i < done.length := by omega
  have isBody : storedFiles queue page done (localName queue[i].path) =
      extractBody done[i].response := by
    apply foldl_update_of_mem
    · rw [map_fst_writes all]
      exact List.mem_map.mpr ⟨queue[i], List.getElem_mem i.isLt, rfl⟩
    · intro write isWrite isName
      rcases List.mem_iff_getElem.mp isWrite with ⟨j, bound, rfl⟩
      have isIndex : j = i := by
        have within : j < (localNames queue).length := by
          rw [← map_fst_writes all]
          simpa using bound
        have isInside : (i : ℕ) < (localNames queue).length := by simp [localNames]
        have same : (localNames queue)[j] = (localNames queue)[(i : ℕ)] := by
          simpa [localNames, writes] using isName
        exact (List.Nodup.getElem_inj_iff own).mp same
      subst isIndex
      simp [writes]
  rw [isBody]
  simp [inside]

/-- If all bodies are the same, it does not matter which file is overwritten. -/
theorem storedFiles_same (all : done.length = queue.length)
    (isBody : ∀ r ∈ done, extractBody r.response = body) {name : Text}
    (isName : name ∈ localNames queue) : storedFiles queue page done name = body := by
  apply foldl_update_of_mem
  · rwa [map_fst_writes all]
  · intro write isWrite _
    rcases List.mem_map.mp isWrite with ⟨pair, isPair, rfl⟩
    exact isBody pair.2 (List.of_mem_zip isPair).2

theorem readManifest_entries (isPath : 9 ∉ path ∧ 10 ∉ path)
    (plain : ∀ asset ∈ queue, 9 ∉ asset.path ∧ 10 ∉ asset.path ∧ 10 ∉ asset.rawRef)
    (noTabs : ∀ asset ∈ queue, 9 ∉ asset.rawRef) :
    readManifest (lineText ((entries queue path page done).map manifestLine)) =
      some (entries queue path page done) := by
  apply readManifest_lineText
  intro f isEntry
  rcases List.mem_cons.mp isEntry with rfl | isAsset
  · have isPage : 9 ∉ pageName ∧ 10 ∉ pageName := by decide
    simp [Fetched.IsPlain, fetched, isPath, isPage]
  · rcases List.mem_map.mp isAsset with ⟨pair, isPair, rfl⟩
    have queued := (List.of_mem_zip isPair).1
    exact fetched_isPlain _ (plain _ queued) (noTabs _ queued)

/-- The loop over the manifest makes the replacements of the queue. -/
theorem substituteItems_entries (all : done.length = queue.length) (html : Text) :
    substituteItems (entries queue path page done) html =
      replaceEach (replacements queue) html := by
  have step (f : Fetched) (html : Text) :
      (if f.rawRef = [] then html else replaceAll f.rawRef (ascii "raw/" ++ f.localFile) html) =
        replaceAll f.rawRef (ascii "raw/" ++ f.localFile) html := by
    split
    case isTrue empty => simp [empty, replaceAll]
    case isFalse => rfl
  have paths : (queue.zip done).map Prod.fst = queue := List.map_fst_zip (by omega)
  simp only [substituteItems, step, entries, List.foldl_cons, List.foldl_map, replaceEach,
    replacements]
  have isPage : replaceAll (fetched path [] pageName page).rawRef
      (ascii "raw/" ++ (fetched path [] pageName page).localFile) html = html := if_pos rfl
  conv_rhs => rw [← paths, List.foldl_map]
  rw [isPage]
  rfl

end Files

section Shown

variable {banner : List Fetched → ℕ → Text → Text} {path : RequestPath} {assets queue : List Asset}
  {page : GetResult} {results : List (Option GetResult)} {items : List Fetched} {html text : Text}

theorem replacements_ne_nil (nonempty : ∀ asset ∈ queue, asset.rawRef ≠ []) :
    ∀ pair ∈ replacements queue, pair.1 ≠ [] ∧ pair.2 ≠ [] := by
  intro pair isPair
  rcases List.mem_map.mp isPair with ⟨asset, queued, rfl⟩
  exact ⟨nonempty asset queued, by simp [ascii]⟩

/-- If nothing is in the way, the page shows every asset from its own file. -/
theorem IsShowable.isShown (showable : IsShowable (queueOf assets))
    (complete : (demoRun banner path assets page results).cursor = (queueOf assets).length) :
    IsShown banner (queueOf assets) (extractBody page.response) (bodies results)
      (demoRun banner path assets page results) := by
  have progress := progress_run banner path assets page results
  have all := progress.cursor.symm.trans complete
  have read : readManifest (demoRun banner path assets page results).manifest =
      some (entries (queueOf assets) path.text page
        (results.reduceOption.take (queueOf assets).length)) := by
    rw [progress.manifest]
    exact readManifest_entries path.isPath (fun asset queued => plain_of_mem_readQueue queued)
      fun asset queued => (showable.plain asset queued).2
  refine ⟨showable.own, ?_, ?_⟩
  · intro i
    rw [progress.raw, ← storedFiles_getElem all showable.own i, List.map_take]
    exact (List.getElem?_take_of_lt i.isLt).symm
  · rcases progress.rendered _ read with ⟨expected, current, isIndex⟩
    refine ⟨_, expected, current, read, isIndex, ?_⟩
    have isPage : (demoRun banner path assets page results).raw pageName =
        extractBody page.response := by
      rw [progress.raw, storedFiles_of_not_mem all showable.notPage, Function.update_self]
    rw [isPage, substituteItems_entries all]
    exact showable.independent.substitutes
      (replacements_ne_nil fun asset queued => (showable.plain asset queued).1) _

/-- The response with the given body. -/
def response (body : Text) : GetResult :=
  { response := crlf ++ crlf ++ body, records := 0, blocks := 0 }

@[simp]
theorem extractBody_response (body : Text) : extractBody (response body).response = body := by
  rw [extractBody, response, find_append_self]
  rfl

theorem progress_same (banner : List Fetched → ℕ → Text → Text) (path : RequestPath)
    (assets : List Asset) (html body : Text) :
    Progress banner path assets (response html)
      (List.replicate (queueOf assets).length (response body))
      (demoRun banner path assets (response html)
        (List.replicate (queueOf assets).length (some (response body)))) := by
  have progress := progress_run banner path assets (response html)
    (List.replicate (queueOf assets).length (some (response body)))
  simpa [List.reduceOption] using progress

theorem AlwaysShown.isShown (always : AlwaysShown banner path assets) (html body : Text) :
    IsShown banner (queueOf assets) html
      (bodies (List.replicate (queueOf assets).length (some (response body))))
      (demoRun banner path assets (response html)
        (List.replicate (queueOf assets).length (some (response body)))) := by
  have complete := (progress_same banner path assets html body).cursor
  rw [List.length_replicate] at complete
  simpa using always _ _ complete

theorem AlwaysShown.exists_items (always : AlwaysShown banner path assets) (html body : Text) :
    ∃ items, (∀ f ∈ items, 9 ∉ f.rawRef ∧ 10 ∉ f.rawRef) ∧
      Substitutes (replacements (queueOf assets)) html
        (substituteItems items
          (if pageName ∈ localNames (queueOf assets) then body else html)) := by
  rcases (always.isShown html body).rendered with
    ⟨items, expected, current, read, -, substitutes⟩
  refine ⟨items, plain_of_readManifest read, ?_⟩
  have all : (List.replicate (queueOf assets).length (response body)).length =
    (queueOf assets).length := List.length_replicate
  have isBody : ∀ r ∈ List.replicate (queueOf assets).length (response body),
      extractBody r.response = body := by
    intro r isResult
    rw [List.eq_of_mem_replicate isResult, extractBody_response]
  rw [(progress_same banner path assets html body).raw] at substitutes
  split
  case isTrue isName => rwa [storedFiles_same all isBody isName] at substitutes
  case isFalse absent =>
    rwa [storedFiles_of_not_mem all absent, Function.update_self, extractBody_response]
      at substitutes

theorem not_infix_newlines {word : Text} (nonempty : word ≠ []) (plain : 10 ∉ word)
    (newlines : ∀ c ∈ html, c = 10) : ¬word <:+: html := by
  intro occurs
  rcases List.exists_cons_of_ne_nil nonempty with ⟨c, rest, rfl⟩
  have isNewline := newlines c (occurs.subset (by simp))
  exact plain (by simp [isNewline])

theorem substituteItems_newlines (plain : ∀ f ∈ items, 9 ∉ f.rawRef ∧ 10 ∉ f.rawRef)
    (newlines : ∀ c ∈ html, c = 10) : substituteItems items html = html := by
  induction items with
  | nil => rfl
  | cons f items ih =>
      have unchanged : (if f.rawRef = [] then html
          else replaceAll f.rawRef (ascii "raw/" ++ f.localFile) html) = html := by
        split
        case isTrue => rfl
        case isFalse nonempty =>
          exact replaceAll_of_not_isInfix
            (not_infix_newlines nonempty (plain f (by simp)).2 newlines)
      rw [substituteItems, List.foldl_cons, unchanged]
      exact ih fun other isItem => plain other (by simp [isItem])

theorem mem_substituteItems {c : UInt8} (absent : ∀ f ∈ items, c ∉ f.rawRef) (inside : c ∈ html) :
    c ∈ substituteItems items html := by
  induction items generalizing html with
  | nil => exact inside
  | cons f items ih =>
      apply ih fun other isItem => absent other (by simp [isItem])
      dsimp only
      split
      case isTrue => exact inside
      case isFalse => exact mem_replaceAll inside (absent f (by simp))

theorem exists_index {asset : Asset} (queued : asset ∈ queue) :
    ∃ i : Fin (replacements queue).length,
      (replacements queue)[i] = (asset.rawRef, ascii "raw/" ++ localName asset.path) := by
  have isPair : (asset.rawRef, ascii "raw/" ++ localName asset.path) ∈ replacements queue :=
    List.mem_map.mpr ⟨asset, queued, rfl⟩
  rcases List.mem_iff_getElem.mp isPair with ⟨i, bound, same⟩
  exact ⟨⟨i, bound⟩, same⟩

theorem AlwaysShown.rawRef_ne_nil (always : AlwaysShown banner path assets) :
    ∀ asset ∈ queueOf assets, asset.rawRef ≠ [] := by
  intro asset queued empty
  -- an empty reference occurs everywhere, but a page with one line break is left as it is
  rcases exists_index queued with ⟨i, isPair⟩
  rcases always.exists_items [10] [10] with ⟨items, plain, pieces, isText, covers, -, isResult⟩
  rw [ite_self, substituteItems_newlines plain (by simp)] at isResult
  have marked := covers i [] [10] (by simp [isText, stage_zero, isPair, empty])
  have inside : stage (replacements (queueOf assets)) (replacements (queueOf assets)).length i <:+:
      [10] := by
    rw [isResult]
    exact infix_expand marked.mem
  have bound := inside.length_le
  simp [stage_length, isPair, ascii] at bound

theorem AlwaysShown.tab_not_mem (always : AlwaysShown banner path assets) :
    ∀ asset ∈ queueOf assets, 9 ∉ asset.rawRef := by
  intro asset queued isTab
  -- no reference that is read from the manifest has a tab, so the tab stays in the page
  rcases exists_index queued with ⟨i, isPair⟩
  rcases always.exists_items asset.rawRef asset.rawRef with
    ⟨items, plain, pieces, isText, covers, -, isResult⟩
  have stays := mem_substituteItems (fun f isItem => (plain f isItem).1) isTab
  rw [ite_self] at isResult
  have isWord := stage_ne_nil (replacements_ne_nil always.rawRef_ne_nil) 0
  rcases covers i [] [] (by simp [isText, stage_zero, isPair]) with ⟨front, back, rfl, isFront⟩
  obtain rfl : front = [] := (expand_eq_nil_iff isWord).mp isFront
  obtain rfl : back = [] := by
    apply (expand_eq_nil_iff isWord).mp
    simpa [stage_zero, isPair] using isText
  rw [isResult] at stays
  simp [stage_length, isPair, localName_plain] at stays
  simp [ascii] at stays

theorem AlwaysShown.notPage (always : AlwaysShown banner path assets) :
    pageName ∉ localNames (queueOf assets) := by
  intro isName
  -- the page that is rendered is the body of an asset
  rcases always.exists_items [10] [10, 10] with ⟨items, plain, pieces, isText, covers, -, isResult⟩
  rw [if_pos isName, substituteItems_newlines plain (by simp)] at isResult
  have unmarked : ∀ i, .mark i ∉ pieces := by
    intro i marked
    have occurs : stage (replacements (queueOf assets)) 0 i <:+: [10] := by
      rw [← isText]
      exact infix_expand marked
    rcases List.mem_map.mp (List.getElem_mem i.isLt) with ⟨asset, queued, isPair⟩
    have isRef : stage (replacements (queueOf assets)) 0 i = asset.rawRef := by
      rw [stage_zero]
      exact (congrArg Prod.fst isPair).symm
    rw [isRef] at occurs
    exact not_infix_newlines (always.rawRef_ne_nil asset queued)
      (plain_of_mem_readQueue queued).2.2 (by simp) occurs
  rw [expand_eq_of_unmarked _ (stage (replacements (queueOf assets)) 0) unmarked,
    isText] at isResult
  simp at isResult

/-- The page shows every asset from its own bytes, for all bodies, exactly if the names of the
files are different and the references can be replaced one by one. -/
theorem alwaysShown_iff (banner : List Fetched → ℕ → Text → Text) (path : RequestPath)
    (assets : List Asset) :
    AlwaysShown banner path assets ↔ IsShowable (queueOf assets) := by
  constructor
  · intro always
    refine ⟨(always.isShown [] []).own, always.notPage, fun asset queued =>
      ⟨always.rawRef_ne_nil asset queued, always.tab_not_mem asset queued⟩, ?_⟩
    apply independent_of_substitutes (replacements_ne_nil always.rawRef_ne_nil)
    intro text
    rcases always.exists_items text text with ⟨items, -, substitutes⟩
    exact ⟨_, substitutes⟩
  · intro showable page results complete
    exact showable.isShown complete

example : IsShowable
    [{ path := ascii "/main.css", rawRef := ascii "main.css" },
      { path := ascii "/logo.png", rawRef := ascii "/logo.png" }] := by
  decide +kernel

theorem isPath_root : 9 ∉ ascii "/" ∧ 10 ∉ ascii "/" := by decide

/-- The demo on a page at the root, with an empty banner. -/
def demoAtRoot (assets : List Asset) (html : Text) (bodies : List Text) : Outdir :=
  demoRun (fun _ _ _ => []) ⟨ascii "/", isPath_root⟩ assets (response html)
    (bodies.map fun body => some (response body))

/-- Two versions of a script. -/
def versions : List Asset :=
  [{ path := ascii "/a.js?v=1", rawRef := ascii "a.js?v=1" },
    { path := ascii "/a.js?v=2", rawRef := ascii "a.js?v=2" }]

/-- Two scripts with the same last segment. -/
def scripts : List Asset :=
  [{ path := ascii "/a.js", rawRef := ascii "a.js" },
    { path := ascii "/lib/a.js", rawRef := ascii "lib/a.js" }]

/-- The versions share a file, and the reference to the second script is not replaced because the
first one is found in it. -/
theorem versions_lost_scripts_broken :
    (versions.map Asset.path).Nodup ∧ (versions.map Asset.rawRef).Nodup ∧
      (demoAtRoot versions [] [[1], [2]]).cursor = versions.length ∧
      localName (ascii "/a.js?v=1") = localName (ascii "/a.js?v=2") ∧
      (demoAtRoot versions [] [[1], [2]]).raw (localName (ascii "/a.js?v=1")) = [2] ∧
    (scripts.map Asset.path).Nodup ∧ (scripts.map Asset.rawRef).Nodup ∧
      (demoAtRoot scripts (ascii "src=lib/a.js") [[1], [2]]).cursor = scripts.length ∧
      (demoAtRoot scripts (ascii "src=lib/a.js") [[1], [2]]).index = ascii "src=lib/raw/a.js" := by
  decide +kernel

end Shown

end PracticalCrypto.Surf.Demo
