import Marginalia.Command.Run
import Marginalia.Proofs.JsonListings
import Marginalia.Proofs.Listed
import Marginalia.Proofs.Runs
import Marginalia.Proofs.StoredFiles

/-!
# Restoring from the command line

A command line that asks for the comments of one file to be put into another does
what the library does with the two texts, on whatever platform it is run. It
prints the result, or writes it into the target.

The order matters. Both files are read before anything is written, so that nothing
is written if one of them cannot be read as a text; and the target is written
before anything is printed, so that nothing is printed if it cannot be written. A
file that can be read need not be one that can be written: then the run fails, and
if the file could not even be opened it holds what it held before.

The counts of the report are those of the annotation, which places or leaves out
each comment of the source once; the listing of the source has the same comments.

## Results

* `Response.ofRestoreRequest_of_texts`, `Response.ofRestoreRequest_of_unreadable` — the two responses.
* `Platform.perform_restore_of_write` — what writing the target comes to.
* `Store.platform_lawful` — a store is a platform that can be relied on.
* `restore_run`           — what a command line that asks for restoring does.
-/

namespace Marginalia

-- ---------------------------------------------------------------------------
-- Responses
-- ---------------------------------------------------------------------------

namespace Response

variable {readText? : Text → Option Text} {request : RestoreRequest} {source target : Text}

/-- The response when both files hold texts. -/
theorem ofRestoreRequest_of_texts (hSource : readText? request.source = some source)
    (hTarget : readText? request.target = some target) :
    ofRestoreRequest readText? request =
      { stdout := if request.write then [] else carryComments request.levelWidth source target
        stderr :=
          if request.verbose then
            report ((Document.ofText request.levelWidth target).annotate
              (Document.ofText request.levelWidth source).comments)
          else []
        write? :=
          if request.write then some (request.target, carryComments request.levelWidth source target)
          else none } := by
  simp only [ofRestoreRequest, Document.load, hSource, hTarget]
  rfl

/-- The response when one of the files holds no text. -/
theorem ofRestoreRequest_of_unreadable
    (hRead : readText? request.source = none ∨ readText? request.target = none) :
    ∃ reason, ofRestoreRequest readText? request = failure reason := by
  unfold ofRestoreRequest Document.load
  cases hSource : readText? request.source with
  | none => exact ⟨_, rfl⟩
  | some source =>
    have hTarget := hRead.resolve_left (by rw [hSource]; simp)
    rw [hTarget]
    exact ⟨_, rfl⟩

theorem ofListRequest_of_text {showJson : List ListedComment → Text} {listing : ListRequest}
    (hFile : readText? listing.file = some source) :
    ofListRequest showJson readText? listing =
      { stdout :=
          if listing.json then
            showJson (Listing.ofDocument (Document.ofText listing.levelWidth source)) ++ ['\n']
          else Listing.table (Listing.ofDocument (Document.ofText listing.levelWidth source)) } := by
  simp only [ofListRequest, Document.load, hFile]

end Response

/-- The response ends with a report of so many restored and dropped comments. -/
def Response.Reports (response : Response) (restored dropped : Nat) : Prop :=
  "Restored ".toList ++ decimal restored ++ " comments, dropped ".toList ++ decimal dropped ++ ['.', '\n']
    <:+ response.stderr

/-- A report tells how many comments were placed and how many were left out. -/
theorem Response.report_suffix (result : Annotated) :
    "Restored ".toList ++ decimal result.placed ++ " comments, dropped ".toList
      ++ decimal result.orphans.length ++ ['.', '\n'] <:+ report result := by
  rw [report]
  simp only [List.append_assoc]
  exact List.suffix_append _ _

-- ---------------------------------------------------------------------------
-- Runs on a platform
-- ---------------------------------------------------------------------------

/-- The listing of the file that comments are restored from, with the same width. -/
def RestoreRequest.listing (request : RestoreRequest) (json : Bool) : ListRequest :=
  { json, levelWidth := request.levelWidth, file := request.source }

namespace Platform

variable {State : Type} {platform : Platform State} {view : FileView State} {state : State}
  {arguments : List Text} {invocation : Invocation} {request : RestoreRequest} {source target : Text}

theorem run_of_parse (hParse : platform.parse arguments = .ok invocation) :
    platform.run state arguments = platform.perform state invocation := by
  rw [run, hParse]

/-- Without a text to write, the response is all there is. -/
theorem perform_of_write?_eq_none {response : Response}
    (hResponse : Response.ofInvocation platform.showJson (platform.files.readText? state) invocation
      = response)
    (hWrite : response.write? = none) : platform.perform state invocation = (response, state) := by
  subst hResponse
  rw [perform, hWrite]

theorem perform_restore_of_print (hWrite : request.write = false)
    (hSource : platform.files.readText? state request.source = some source)
    (hTarget : platform.files.readText? state request.target = some target) :
    platform.perform state (.restore request)
      = (Response.ofRestoreRequest (platform.files.readText? state) request, state) := by
  refine perform_of_write?_eq_none rfl ?_
  rw [Response.ofRestoreRequest_of_texts hSource hTarget, hWrite]
  rfl

/-- The target is written before anything is printed. -/
theorem perform_restore_of_write (hWrite : request.write = true)
    (hSource : platform.files.readText? state request.source = some source)
    (hTarget : platform.files.readText? state request.target = some target) :
    platform.perform state (.restore request)
      = platform.save state (Response.ofRestoreRequest (platform.files.readText? state) request)
          request.target (carryComments request.levelWidth source target) := by
  have hResponse : (Response.ofRestoreRequest (platform.files.readText? state) request).write?
      = some (request.target, carryComments request.levelWidth source target) := by
    rw [Response.ofRestoreRequest_of_texts hSource hTarget, hWrite]
    rfl
  rw [perform, Response.ofInvocation, hResponse]

theorem perform_restore_of_unreadable
    (hRead : platform.files.readText? state request.source = none ∨
      platform.files.readText? state request.target = none) :
    ∃ reason, platform.perform state (.restore request) = (.failure reason, state) := by
  obtain ⟨reason, hReason⟩ := Response.ofRestoreRequest_of_unreadable hRead
  exact ⟨reason, perform_of_write?_eq_none hReason rfl⟩

theorem perform_list_of_text {listing : ListRequest}
    (hFile : platform.files.readText? state listing.file = some source) :
    (platform.perform state (.list listing)).1.stdout
      = if listing.json then
          platform.showJson (Listing.ofDocument (Document.ofText listing.levelWidth source)) ++ ['\n']
        else Listing.table (Listing.ofDocument (Document.ofText listing.levelWidth source)) := by
  rw [@perform_of_write?_eq_none _ _ _ (.list listing) _ (Response.ofListRequest_of_text hFile) rfl]

/-- So these are the entries that a listing shows: from JSON they can be told, and
in a table each has a line of its own. -/
def Shows (platform : Platform State) (json : Bool) (stdout : Text) (entries : List ListedComment) : Prop :=
  if json then
    stdout = platform.showJson entries ++ ['\n'] ∧
      ∀ other, stdout = platform.showJson other ++ ['\n'] → other = entries
  else stdout = Listing.table entries ∧ stdout.count '\n' = entries.length

/-- A listing of a file shows the comments of its text. -/
theorem shows_perform_list (hPlatform : platform.Lawful view) {listing : ListRequest}
    (hFile : platform.files.readText? state listing.file = some source) :
    platform.Shows listing.json (platform.perform state (.list listing)).1.stdout
      (Listing.ofDocument (Document.ofText listing.levelWidth source)) := by
  rw [perform_list_of_text hFile, Shows]
  cases listing.json with
  | true =>
    refine ⟨rfl, fun other hOther => ?_⟩
    exact hPlatform.showJson (List.append_cancel_right hOther).symm
  | false =>
    refine ⟨rfl, ?_⟩
    rw [Listing.length_ofDocument]
    exact Document.count_feed_listing listing.levelWidth source

-- ---------------------------------------------------------------------------
-- What a run leaves
-- ---------------------------------------------------------------------------

/-- A run failed without a trace: it printed nothing on standard output, and
changed nothing. -/
def Fails (state : State) (outcome : Response × State) : Prop :=
  outcome.1.code = 1 ∧ outcome.1.stdout = [] ∧ outcome.2 = state

/-- What a run leaves that restores this text. -/
structure Restores (platform : Platform State) (view : FileView State) (state : State)
    (request : RestoreRequest) (text : Text) (outcome : Response × State) : Prop where
  /-- Without writing, it succeeds, prints the text and changes nothing. -/
  printed : request.write = false →
    outcome.1.code = 0 ∧ outcome.1.stdout = text ∧ outcome.2 = state
  /-- With writing, nothing is printed on standard output. -/
  silent : request.write = true → outcome.1.stdout = []
  /-- If the target could be written, it has the text, and nothing else is changed. -/
  written : ∀ after, request.write = true →
    platform.files.write state request.target text = .done after →
    outcome.1.code = 0 ∧ view.Rewritten state outcome.2 request.target text
  /-- If the target could not be opened for writing, the run failed. -/
  refused : request.write = true → platform.files.write state request.target text = .refused →
    Fails state outcome
  /-- If writing broke off, the run failed, and nothing but the target is changed. -/
  brokenOff : ∀ after, request.write = true →
    platform.files.write state request.target text = .brokenOff after →
    outcome.1.code = 1 ∧ view.Touched state outcome.2 request.target

theorem save_of_done {response : Response} {name text : Text} {after : State}
    (hWritten : platform.files.write state name text = .done after) :
    platform.save state response name text = (response, after) := by
  rw [save, hWritten]

theorem save_of_refused {response : Response} {name text : Text}
    (hWritten : platform.files.write state name text = .refused) :
    platform.save state response name text
      = (.failure (FileError.unwritable name).message, state) := by
  rw [save, hWritten]

theorem save_of_brokenOff {response : Response} {name text : Text} {after : State}
    (hWritten : platform.files.write state name text = .brokenOff after) :
    platform.save state response name text
      = (.failure (FileError.unwritable name).message, after) := by
  rw [save, hWritten]

/-- Whatever comes of writing, nothing more is printed. -/
theorem stdout_save {response : Response} {name text : Text} (hStdout : response.stdout = []) :
    (platform.save state response name text).1.stdout = [] := by
  cases hWritten : platform.files.write state name text with
  | done after => rw [save_of_done hWritten, hStdout]
  | refused => rw [save_of_refused hWritten, Response.failure]
  | brokenOff after => rw [save_of_brokenOff hWritten, Response.failure]

/-- If both files hold texts, restoring restores what the library makes of them. -/
theorem restores_perform (hPlatform : platform.Lawful view)
    (hSource : platform.files.readText? state request.source = some source)
    (hTarget : platform.files.readText? state request.target = some target) :
    platform.Restores view state request (carryComments request.levelWidth source target)
      (platform.perform state (.restore request)) := by
  have hResponse := Response.ofRestoreRequest_of_texts hSource hTarget
  obtain ⟨file, hFile, -⟩ := hPlatform.files.read hTarget
  cases hWrite : request.write with
  | false =>
    have hNot : ¬ request.write = true := by rw [hWrite]; exact Bool.false_ne_true
    rw [perform_restore_of_print hWrite hSource hTarget, hResponse, hWrite]
    exact
      { printed := fun _ => ⟨rfl, rfl, rfl⟩
        silent := fun h => absurd h hNot
        written := fun _ h => absurd h hNot
        refused := fun h => absurd h hNot
        brokenOff := fun _ h => absurd h hNot }
  | true =>
    rw [perform_restore_of_write hWrite hSource hTarget, hResponse, hWrite]
    refine
      { printed := fun h => absurd (hWrite.symm.trans h) (by decide)
        silent := fun _ => stdout_save rfl
        written := fun after _ hDone => ?_
        refused := fun _ hRefused => ?_
        brokenOff := fun after _ hBroken => ?_ }
    · have hKept := hPlatform.files.others hFile (congrArg Written.after? hDone)
      obtain ⟨written, hLeads, hText⟩ := hPlatform.files.written hDone
      rw [hKept.names, hFile] at hLeads
      obtain rfl := Option.some.inj hLeads
      rw [save_of_done hDone]
      exact ⟨rfl, file, hFile, hText, hKept⟩
    · rw [save_of_refused hRefused]
      exact ⟨rfl, rfl, rfl⟩
    · have hKept := hPlatform.files.others hFile (congrArg Written.after? hBroken)
      rw [save_of_brokenOff hBroken]
      exact ⟨rfl, file, hFile, hKept⟩

/-- A run that succeeds gives the whole response. -/
theorem response_perform_of_code (hSource : platform.files.readText? state request.source = some source)
    (hTarget : platform.files.readText? state request.target = some target)
    (hCode : (platform.perform state (.restore request)).1.code = 0) :
    (platform.perform state (.restore request)).1
      = Response.ofRestoreRequest (platform.files.readText? state) request := by
  cases hWrite : request.write with
  | false => rw [perform_restore_of_print hWrite hSource hTarget]
  | true =>
    rw [perform_restore_of_write hWrite hSource hTarget] at hCode ⊢
    cases hWritten : platform.files.write state request.target
        (carryComments request.levelWidth source target) with
    | done after => rw [save_of_done hWritten]
    | refused =>
      rw [save_of_refused hWritten] at hCode
      cases hCode
    | brokenOff after =>
      rw [save_of_brokenOff hWritten] at hCode
      cases hCode

/-- A run that succeeds and reports tells the counts of the annotation. -/
theorem reports_perform (hVerbose : request.verbose = true)
    (hSource : platform.files.readText? state request.source = some source)
    (hTarget : platform.files.readText? state request.target = some target)
    (hCode : (platform.perform state (.restore request)).1.code = 0) :
    (platform.perform state (.restore request)).1.Reports
      ((Document.ofText request.levelWidth target).annotate
        (Document.ofText request.levelWidth source).comments).placed
      ((Document.ofText request.levelWidth target).annotate
        (Document.ofText request.levelWidth source).comments).orphans.length := by
  rw [response_perform_of_code hSource hTarget hCode, Response.ofRestoreRequest_of_texts hSource hTarget,
    hVerbose]
  exact Response.report_suffix _

end Platform

theorem Store.platform_lawful : Store.platform.Lawful Store.view where
  files := Store.fileSystem_lawful
  showJson := Listing.json_injective

/-- **What a command line that asks for restoring does**, on any platform and in any
state of it. If both files hold texts, it restores what the library makes of the
texts; and if it succeeds and reports, the numbers of restored and dropped comments
add up to the number of entries that every listing of the source with the same width
shows. If one of the files holds no text, it fails, prints nothing on standard
output and changes nothing. -/
theorem restore_run {State : Type} {platform : Platform State} {view : FileView State}
    (hPlatform : platform.Lawful view) {arguments : List Text} {request : RestoreRequest}
    (hRequest : platform.parse arguments = .ok (.restore request)) (state : State) :
    (∀ source target, platform.files.readText? state request.source = some source →
      platform.files.readText? state request.target = some target →
      platform.Restores view state request (carryComments request.levelWidth source target)
        (platform.run state arguments) ∧
      (request.verbose = true → (platform.run state arguments).1.code = 0 →
        ∃ restored dropped,
          (platform.run state arguments).1.Reports restored dropped ∧
          restored + dropped
            = (Listing.ofDocument (Document.ofText request.levelWidth source)).length ∧
          ∀ json, platform.Shows json
            (platform.perform state (.list (request.listing json))).1.stdout
            (Listing.ofDocument (Document.ofText request.levelWidth source)))) ∧
    (platform.files.readText? state request.source = none ∨
        platform.files.readText? state request.target = none →
      Platform.Fails state (platform.run state arguments)) := by
  rw [Platform.run_of_parse hRequest]
  constructor
  · intro source target hSource hTarget
    refine ⟨Platform.restores_perform hPlatform hSource hTarget, fun hVerbose hCode => ?_⟩
    have hCounts := (Decisions.made (Document.ofText request.levelWidth target)
      (Document.ofText request.levelWidth source).comments).placed_add_orphans
    refine ⟨_, _, Platform.reports_perform hVerbose hSource hTarget hCode,
      hCounts.trans (Listing.length_ofDocument _).symm, fun json => ?_⟩
    exact @Platform.shows_perform_list _ _ _ _ _ hPlatform (request.listing json) hSource
  · intro hRead
    obtain ⟨reason, hRun⟩ := Platform.perform_restore_of_unreadable hRead
    rw [hRun]
    exact ⟨rfl, rfl, rfl⟩

/-- A file written over with the comments of another that has an absolute name, and
its listing in JSON; a target that cannot be written; and a source that is missing. -/
theorem restore_run_in_place :
    ∃ (store : Store) (written listed refused failed : List Text)
      (request locked lost : RestoreRequest),
      store.files.map (·.1) = ["kept.yaml".toList, "new.yaml".toList, "old.yaml".toList] ∧
      Store.platform.parse written = .ok (.restore request) ∧
      request = ⟨"/work/old.yaml".toList, "new.yaml".toList, true, true, 2⟩ ∧
      store.readText? request.source = some "# x\na: 1 # y\nb: 1 # z\n".toList ∧
      store.readText? request.target = some "a: 2\n".toList ∧
      (Store.platform.run store written).1.code = 0 ∧ (Store.platform.run store written).1.stdout = [] ∧
      Store.view.Rewritten store (Store.platform.run store written).2 request.target
        "# x\na: 2 # y\n".toList ∧
      Store.platform.parse listed = .ok (.list (request.listing true)) ∧
      (∃ restored dropped entries, (Store.platform.run store written).1.Reports restored dropped ∧
        Store.platform.Shows true (Store.platform.run store listed).1.stdout entries ∧
        restored + dropped = entries.length ∧ entries.length = 3) ∧
      Store.platform.parse refused = .ok (.restore locked) ∧ locked.write = true ∧
      store.readText? locked.target = some "a: 2\n".toList ∧
      Platform.Fails store (Store.platform.run store refused) ∧
      Store.platform.parse failed = .ok (.restore lost) ∧ store.readText? lost.source = none ∧
      Platform.Fails store (Store.platform.run store failed) := by
  let store := (Store.ofFiles
    [("old.yaml".toList, some (.text "# x\na: 1 # y\nb: 1 # z\n".toList)),
      ("new.yaml".toList, some (.text "a: 2\n".toList)),
      ("kept.yaml".toList, some (.text "a: 2\n".toList))]).lock "kept.yaml".toList
  have hWritten : Store.platform.parse
      ["restore".toList, "-wv".toList, "--from=/work/old.yaml".toList, "--indent=2".toList,
        "new.yaml".toList]
        = .ok (.restore ⟨"/work/old.yaml".toList, "new.yaml".toList, true, true, 2⟩) := rfl
  have hListed : Store.platform.parse
      ["list".toList, "--json".toList, "--indent=2".toList, "/work/old.yaml".toList]
        = .ok (.list ((⟨"/work/old.yaml".toList, "new.yaml".toList, true, true, 2⟩ : RestoreRequest).listing
          true)) := rfl
  have hRefused : Store.platform.parse
      ["restore".toList, "-w".toList, "--from".toList, "old.yaml".toList, "kept.yaml".toList]
        = .ok (.restore ⟨"old.yaml".toList, "kept.yaml".toList, true, false, 4⟩) := rfl
  have hFailed : Store.platform.parse
      ["restore".toList, "--from".toList, "lost.yaml".toList, "new.yaml".toList]
        = .ok (.restore ⟨"lost.yaml".toList, "new.yaml".toList, false, false, 4⟩) := rfl
  have hSource : store.readText? "/work/old.yaml".toList
      = some "# x\na: 1 # y\nb: 1 # z\n".toList := by decide
  have hTarget : store.readText? "new.yaml".toList = some "a: 2\n".toList := by decide
  have hNear : store.readText? "old.yaml".toList
      = some "# x\na: 1 # y\nb: 1 # z\n".toList := by decide
  have hKept : store.readText? "kept.yaml".toList = some "a: 2\n".toList := by decide
  have hLost : store.readText? "lost.yaml".toList = none := by decide
  have hNames : store.files.map (·.1) = ["kept.yaml".toList, "new.yaml".toList, "old.yaml".toList] := by
    decide
  have hRefuses : ∀ t, Store.platform.files.write store "kept.yaml".toList t = .refused := fun _ => rfl
  have hText : carryComments 2 "# x\na: 1 # y\nb: 1 # z\n".toList "a: 2\n".toList
      = "# x\na: 2 # y\n".toList := by decide
  have hLength : (Listing.ofDocument
      (Document.ofText 2 "# x\na: 1 # y\nb: 1 # z\n".toList)).length = 3 := by decide
  obtain ⟨hRestores, hCounts⟩ := (restore_run Store.platform_lawful hWritten store).1 _ _ hSource hTarget
  rw [hText] at hRestores
  obtain ⟨hCode, hRewritten⟩ := hRestores.written _ rfl rfl
  obtain ⟨restored, dropped, hReports, hSum, hShows⟩ := hCounts rfl hCode
  have hList := hShows true
  rw [← Platform.run_of_parse hListed] at hList
  have hLocked := ((restore_run Store.platform_lawful hRefused store).1 _ _ hNear hKept).1
  have hMissing := (restore_run Store.platform_lawful hFailed store).2 (.inl hLost)
  exact ⟨store, _, _, _, _, _, _, _, hNames, hWritten, rfl, hSource, hTarget, hCode, hRestores.silent rfl,
    hRewritten, hListed, ⟨restored, dropped, _, hReports, hList, hSum, hLength⟩,
    hRefused, rfl, hKept, hLocked.refused rfl (hRefuses _), hFailed, hLost, hMissing⟩

/-- A target that can be read and not written: the run fails, and the target holds
what it held before. -/
theorem restore_run_locked :
    ∃ (store : Store) (request : RestoreRequest),
      Store.platform.parse
          ["restore".toList, "--write".toList, "--from".toList, "old.yaml".toList, "new.yaml".toList]
        = .ok (.restore request) ∧
      request.write = true ∧
      store.readText? request.source = some "# x\na: 1\n".toList ∧
      store.readText? request.target = some "a: 2\n".toList ∧
      carryComments request.levelWidth "# x\na: 1\n".toList "a: 2\n".toList = "# x\na: 2\n".toList ∧
      (Store.platform.run store ["restore".toList, "--write".toList, "--from".toList, "old.yaml".toList,
        "new.yaml".toList]).1.code = 1 ∧
      (Store.platform.run store ["restore".toList, "--write".toList, "--from".toList, "old.yaml".toList,
        "new.yaml".toList]).2.readText? request.target = some "a: 2\n".toList := by
  refine ⟨(Store.ofFiles
    [("old.yaml".toList, some (.text "# x\na: 1\n".toList)),
      ("new.yaml".toList, some (.text "a: 2\n".toList))]).lock "new.yaml".toList,
    ⟨"old.yaml".toList, "new.yaml".toList, true, false, 4⟩, rfl, rfl, ?_, ?_, ?_, ?_, ?_⟩
  all_goals decide

end Marginalia
