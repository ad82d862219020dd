import Zizq.Client.Bulk
import Zizq.Data.Paging

/-! The streams of the listings.

`list_jobs` and `list_errors` stream across pages in the same way: a stream holds the
rest of a page and a cursor, takes its items off the page, and follows the cursor when
the page is drained. What there is to stream is said without either, by the server alone:
the pages from the URL of the builder on, along their next links (`Linked`). The streams
yield the items of these pages, and request each page when they are asked for an item
behind the one before it (`stream_chain`). The unfolding ends behind an error. -/
namespace Zizq.Client
open Data Data.Paging

structure ErrorPage (R : Type) where
  errors : List R
  pages : PageLinks

section Listing
variable {J R P I α β : Type} (crate : UrlCrate) (base : AbsoluteUrl)

/-! ### Listing errors -/

structure ListErrorsBuilder where
  jobId : String
  fromAttempt : Option UInt32 := none
  order : Option Order := none
  limit : Option UInt16 := none

def ListErrorsBuilder.buildUrl (builder : ListErrorsBuilder) : Target where
  url := requestUrl crate base ["jobs", builder.jobId, "errors"]
  pairs :=
    if builder.fromAttempt.isSome || builder.order.isSome || builder.limit.isSome then
      valuePair "from" (fun n => toString n.toNat) builder.fromAttempt ++
        valuePair "order" Order.asStr builder.order ++
        valuePair "limit" (fun n => toString n.toNat) builder.limit
    else []

structure ErrorStreamState (R : Type) where
  buffer : List R
  cursor : PageCursor

def ListErrorsBuilder.stream (builder : ListErrorsBuilder) : ErrorStreamState R where
  buffer := []
  cursor := .first (builder.buildUrl crate base)

/-! ### Pages -/

section Pages
variable (get : Target → Except ZizqError P)

/-- `Client::get_page`: the URL that a link resolves to is fetched. -/
def getPage (path : String) : Except ZizqError P :=
  match resolvePagePath crate base path.toList with
  | .error e => .error e
  | .ok url => get ⟨url, []⟩

/-- The page that a cursor points at; none if the result set is exhausted. -/
def PageCursor.page : PageCursor → Option (Except ZizqError P)
  | .first target => some (get target)
  | .next path => some (getPage crate base get path)
  | .done => none

/-- The request of a fetch; none goes out for a link that does not resolve. -/
def PageCursor.request : PageCursor → Option Target
  | .first target => some target
  | .next path =>
    match resolvePagePath crate base path.toList with
    | .error _ => none
    | .ok url => some ⟨url, []⟩
  | .done => none

/-- The cursor that a page leaves. -/
def PageLinks.cursor (pages : PageLinks) : PageCursor :=
  match pages.next with
  | some path => .next path
  | none => .done

/-- What a stream with a drained buffer goes on with: the items of the next page, and its cursor. -/
def PageCursor.turn (items : P → List I) (links : P → PageLinks) (cursor : PageCursor) :
    Option (Except ZizqError (List I × PageCursor)) :=
  (cursor.page crate base get).map fun page => page.map fun page => (items page, (links page).cursor)

end Pages

/-- The turn of `ListJobsBuilder::stream`. -/
def jobTurn (get : Target → Except ZizqError (JobPage J)) :
    PageCursor → Option (Except ZizqError (List J × PageCursor)) :=
  PageCursor.turn crate base get JobPage.jobs JobPage.pages

/-- The turn of `ListErrorsBuilder::stream`. -/
def errorTurn (get : Target → Except ZizqError (ErrorPage R)) :
    PageCursor → Option (Except ZizqError (List R × PageCursor)) :=
  PageCursor.turn crate base get ErrorPage.errors ErrorPage.pages

def JobStreamState.state (state : JobStreamState J) : State PageCursor J := ⟨state.buffer, state.cursor⟩

def ErrorStreamState.state (state : ErrorStreamState R) : State PageCursor R := ⟨state.buffer, state.cursor⟩

/-! ### Requests -/

/-- What awaiting comes to against a server. -/
def Awaited.answer (server : Request → Exchange) : Awaited α → Except ZizqError α
  | .ready result => result
  | .send request settle => settle (server request)

/-- `Client::get_decoded` against a server. -/
def getDecoded {Patch Policy : Type} (codec : BulkCodec J Patch Policy) (configured : Format)
    (server : Request → Exchange) (decode : Format → Bytes → Except String α) (target : Target) :
    Except ZizqError α :=
  (sendDecoded codec configured .get target decode).answer server

theorem settle_map {Patch Policy : Type} (codec : BulkCodec J Patch Policy) (configured : Format)
    (decode : Format → Bytes → Except String α) (f : α → β) (exchange : Exchange) :
    settle codec configured (fun format body => (decode format body).map f) exchange =
      (settle codec configured decode exchange).map f := by
  rcases exchange with source | response
  · rfl
  · simp only [settle]
    rcases response.body with source | body
    · rfl
    · simp only
      split
      · cases decode (responseFormat configured response) body <;> rfl
      · rfl

/-- The requests of a stream are those of its cursor. -/
theorem fetch_answer {Patch Policy : Type} (codec : BulkCodec J Patch Policy) (configured : Format)
    (server : Request → Exchange) (cursor : PageCursor) :
    (cursor.fetch crate codec base configured).answer server =
      ((cursor.page crate base (getDecoded codec configured server codec.decodePage)).map
        fun page => page.map some).getD (.ok none) := by
  cases cursor with
  | first target => exact settle_map codec configured codec.decodePage some _
  | next path =>
    simp only [PageCursor.fetch, PageCursor.page, getPage]
    cases resolvePagePath crate base path.toList with
    | error e => rfl
    | ok url => exact settle_map codec configured codec.decodePage some _
  | done => rfl

theorem fetch_sends {Patch Policy : Type} (codec : BulkCodec J Patch Policy) (configured : Format)
    (cursor : PageCursor) :
    match cursor.request crate base with
    | some target => ∃ settle, cursor.fetch crate codec base configured = .send ⟨.get, target, none⟩ settle
    | none => ∃ result, cursor.fetch crate codec base configured = .ready result := by
  cases cursor with
  | first target => exact ⟨_, rfl⟩
  | next path =>
    simp only [PageCursor.request, PageCursor.fetch]
    cases resolvePagePath crate base path.toList with
    | error e => exact ⟨_, rfl⟩
    | ok url => exact ⟨_, rfl⟩
  | done => exact ⟨_, rfl⟩

/-! ### Linked pages -/

section Linked
variable (serve : Target → Except ZizqError P) (items : P → List I) (links : P → PageLinks)

/-- The items of the pages from a request on, along the next links, each with the request that it answers: up
to a page without a next link, to a request or a link that fails, or as far as they are followed. -/
inductive Linked : Target → List (Target × List I) → Ending (Option Target) ZizqError → Prop where
  | last {target : Target} {page : P} (hpage : serve target = .ok page) (hlast : (links page).next = none) :
      Linked target [(target, items page)] .last
  | refused {target : Target} {e : ZizqError} (h : serve target = .error e) :
      Linked target [] (.failed (some target) e)
  | broken {target : Target} {page : P} {link : String} {e : ZizqError} (hpage : serve target = .ok page)
      (hnext : (links page).next = some link) (hlink : resolvePagePath crate base link.toList = .error e) :
      Linked target [(target, items page)] (.failed none e)
  | more (target : Target) : Linked target [] .more
  | page {target : Target} {page : P} {link : String} {url : AbsoluteUrl} {pages : List (Target × List I)}
      {ending : Ending (Option Target) ZizqError} (hpage : serve target = .ok page)
      (hnext : (links page).next = some link) (hlink : resolvePagePath crate base link.toList = .ok url)
      (rest : Linked ⟨url, []⟩ pages ending) : Linked target ((target, items page) :: pages) ending

end Linked

/-- The requests of `k` polls: that of a page if one of them goes past the last item in front of it. -/
def requested : List (Target × List I) → Ending (Option Target) ZizqError → Nat → List Target
  | _, _, 0 => []
  | (target, items) :: pages, ending, k + 1 => target :: requested pages ending (k + 1 - items.length)
  | [], .failed target _, _ + 1 => target.toList
  | [], _, _ + 1 => []

/-- `k` polls come to these results, and send these requests. -/
def Streamed (turn : PageCursor → Option (Except ZizqError (List I × PageCursor))) (fuel k : Nat)
    (state : State PageCursor I) (results : List (Option (Except ZizqError I))) (requests : List Target) : Prop :=
  ∃ cursors, Polled turn fuel k state results cursors ∧
    cursors.filterMap (PageCursor.request crate base) = requests

variable {crate base} {serve : Target → Except ZizqError P} {items : P → List I} {links : P → PageLinks}

theorem turn_eq {cursor : PageCursor} {target : Target} (h : cursor.request crate base = some target) :
    cursor.turn crate base serve items links =
      some ((serve target).map fun page => (items page, (links page).cursor)) := by
  cases cursor with
  | first target' =>
    obtain rfl := Option.some.inj h
    rfl
  | next path =>
    rw [PageCursor.request] at h
    split at h
    · cases h
    · next url hurl =>
      obtain rfl := Option.some.inj h
      simp only [PageCursor.turn, PageCursor.page, getPage, hurl, Option.map_some]
  | done => cases h

theorem cursor_eq {page : P} {link : String} (h : (links page).next = some link) :
    (links page).cursor = .next link := by
  simp only [PageLinks.cursor, h]

/-- A turn at a request that is answered comes to the page, and leaves the cursor of its link. -/
theorem turn_page {cursor : PageCursor} {target : Target} {page : P} (h : cursor.request crate base = some target)
    (hpage : serve target = .ok page) :
    cursor.turn crate base serve items links = some (.ok (items page, (links page).cursor)) := by
  rw [turn_eq h, hpage]
  rfl

/-- A chain of cursors stands for linked pages. -/
structure Traces (crate : UrlCrate) (base : AbsoluteUrl) (cursors : List (PageCursor × List I))
    (fate : Ending PageCursor ZizqError) (pages : List (Target × List I))
    (ending : Ending (Option Target) ZizqError) : Prop where
  pages : cursors.map (Prod.map (PageCursor.request crate base) id) = pages.map (Prod.map some id)
  ending : fate.map (PageCursor.request crate base) = ending

theorem Traces.cons {cursors : List (PageCursor × List I)} {fate : Ending PageCursor ZizqError}
    {pages : List (Target × List I)} {ending : Ending (Option Target) ZizqError}
    (h : Traces crate base cursors fate pages ending) {cursor : PageCursor} {target : Target}
    (hcursor : cursor.request crate base = some target) (items : List I) :
    Traces crate base ((cursor, items) :: cursors) fate ((target, items) :: pages) ending where
  pages := by rw [List.map_cons, List.map_cons, h.pages, Prod.map, Prod.map, hcursor]
  ending := h.ending

/-- The streams' cursors go along the linked pages. -/
theorem chain_of_linked {target : Target} {pages : List (Target × List I)}
    {ending : Ending (Option Target) ZizqError} (h : Linked crate base serve items links target pages ending)
    {cursor : PageCursor} (hcursor : cursor.request crate base = some target) :
    ∃ cursors fate, Chain (PageCursor.turn crate base serve items links) cursor cursors fate ∧
      Traces crate base cursors fate pages ending := by
  induction h generalizing cursor with
  | @last target page hpage hlast =>
    have hturn : cursor.turn crate base serve items links = _ := turn_page hcursor hpage
    rw [show (links page).cursor = .done by simp only [PageLinks.cursor, hlast]] at hturn
    exact ⟨_, _, .page hturn (.last rfl), Traces.cons ⟨rfl, rfl⟩ hcursor _⟩
  | @refused target e h =>
    have hturn : cursor.turn crate base serve items links = some (.error e) := by rw [turn_eq hcursor, h]; rfl
    exact ⟨[], _, .failed hturn, rfl, by rw [Ending.map, hcursor]⟩
  | @broken target page link e hpage hnext hlink =>
    have hturn : cursor.turn crate base serve items links = _ := turn_page hcursor hpage
    rw [cursor_eq hnext] at hturn
    have hbroken : (PageCursor.next link).turn crate base serve items links = some (.error e) := by
      simp only [PageCursor.turn, PageCursor.page, getPage, hlink]
      rfl
    have hnone : (PageCursor.next link).request crate base = none := by simp only [PageCursor.request, hlink]
    exact ⟨_, _, .page hturn (.failed hbroken), Traces.cons ⟨rfl, by rw [Ending.map, hnone]⟩ hcursor _⟩
  | more target => exact ⟨[], .more, .more cursor, rfl, rfl⟩
  | @page target page link url pages ending hpage hnext hlink rest ih =>
    have hturn : cursor.turn crate base serve items links = _ := turn_page hcursor hpage
    rw [cursor_eq hnext] at hturn
    have hrequest : (PageCursor.next link).request crate base = some ⟨url, []⟩ := by
      simp only [PageCursor.request, hlink]
    obtain ⟨cursors, fate, hchain, htraces⟩ := ih hrequest
    exact ⟨_, _, .page hturn hchain, htraces.cons hcursor _⟩

theorem Traces.itemsOf {cursors : List (PageCursor × List I)} {fate : Ending PageCursor ZizqError}
    {pages : List (Target × List I)} {ending : Ending (Option Target) ZizqError}
    (h : Traces crate base cursors fate pages ending) : itemsOf cursors = itemsOf pages := by
  have hsnd := congrArg (List.map Prod.snd) h.pages
  simp only [List.map_map, Function.comp_def, Prod.map_snd, id_eq] at hsnd
  rw [Paging.itemsOf, Paging.itemsOf, List.flatMap_def, List.flatMap_def, hsnd]

theorem Traces.requested {cursors : List (PageCursor × List I)} {fate : Ending PageCursor ZizqError}
    {pages : List (Target × List I)} {ending : Ending (Option Target) ZizqError}
    (h : Traces crate base cursors fate pages ending) (k : Nat) :
    (reached cursors fate k).filterMap (PageCursor.request crate base) = requested pages ending k := by
  induction cursors generalizing pages k with
  | nil =>
    obtain rfl : pages = [] := List.map_eq_nil_iff.mp h.pages.symm
    obtain ⟨-, rfl⟩ := h
    cases k with
    | zero => simp [Client.requested]
    | succ k =>
      cases fate with
      | failed cursor e =>
        simp only [reached, Client.requested, Ending.map]
        cases hrequest : cursor.request crate base <;> simp [hrequest]
      | last | more => rfl
  | cons entry cursors ih =>
    obtain ⟨cursor, items⟩ := entry
    obtain ⟨⟨target, items'⟩, pages, rfl, hhead, htail⟩ := List.map_eq_cons_iff.mp h.pages.symm
    obtain ⟨hrequest, rfl⟩ := Prod.mk.inj hhead
    cases k with
    | zero => simp [Client.requested]
    | succ k =>
      rw [reached, List.filterMap_cons, ← show _ = cursor.request crate base from hrequest, Client.requested]
      exact congrArg _ (ih ⟨htail.symm, h.ending⟩ _)

/-- A stream that starts with a request goes along the pages that are linked from it on. -/
theorem streamed_linked {target : Target} {pages : List (Target × List I)}
    {ending : Ending (Option Target) ZizqError} (h : Linked crate base serve items links target pages ending)
    {fuel k : Nat} (hfuel : pages.length < fuel) (hmore : ending = .more → k ≤ (itemsOf pages).length) :
    Streamed crate base (PageCursor.turn crate base serve items links) fuel k ⟨[], .first target⟩
      (yielded (itemsOf pages) ending k) (requested pages ending k) := by
  have hfirst : (PageCursor.first target).request crate base = some target := rfl
  obtain ⟨cursors, fate, hchain, htraces⟩ := chain_of_linked h hfirst
  have hlength : cursors.length = pages.length := by simpa using congrArg List.length htraces.pages
  have hfate (hf : fate = .more) : k ≤ (itemsOf pages).length := hmore (by rw [← htraces.ending, hf]; rfl)
  have hpolled := polled_chain hchain (hlength ▸ hfuel) [] (htraces.itemsOf ▸ hfate)
  rw [List.nil_append, htraces.itemsOf, ← yielded_map (PageCursor.request crate base), htraces.ending] at hpolled
  exact ⟨_, hpolled, htraces.requested k⟩

/-! ### The streams -/

variable (crate base)

/-- **Main theorem.** Against every server, and along every chain of pages that is linked from the URL of the
builder on, any number of polls of the streams yield the items of the pages in order, then the error that
the chain fails with, then nothing. They request each page once, in order, and none before an item behind
those of the pages before it is asked for. With a filter set to an empty list there is no URL, and no page. -/
theorem stream_chain (jobs : Target → Except ZizqError (JobPage J))
    (errors : Target → Except ZizqError (ErrorPage R)) (list : ListJobsBuilder) (history : ListErrorsBuilder)
    (fuel k : Nat) :
    let listed : JobStreamState J := list.stream crate base
    let recorded : ErrorStreamState R := history.stream crate base
    (list.filters.matchesNothing = false →
      ∀ pages ending, Linked crate base jobs JobPage.jobs JobPage.pages (list.buildUrl crate base) pages ending →
        pages.length < fuel → (ending = .more → k ≤ (itemsOf pages).length) →
        Streamed crate base (jobTurn crate base jobs) fuel k listed.state
          (yielded (itemsOf pages) ending k) (requested pages ending k)) ∧
    (list.filters.matchesNothing = true → 0 < fuel →
      Streamed crate base (jobTurn crate base jobs) fuel k listed.state (List.replicate k none) []) ∧
    ∀ pages ending,
      Linked crate base errors ErrorPage.errors ErrorPage.pages (history.buildUrl crate base) pages ending →
      pages.length < fuel → (ending = .more → k ≤ (itemsOf pages).length) →
      Streamed crate base (errorTurn crate base errors) fuel k recorded.state
        (yielded (itemsOf pages) ending k) (requested pages ending k) := by
  intro listed recorded
  refine ⟨fun hfilters pages ending hlinked hfuel hmore => ?_, fun hfilters hfuel => ?_,
    fun pages ending hlinked hfuel hmore => streamed_linked hlinked hfuel hmore⟩
  · have hstate : listed.state = ⟨[], .first (list.buildUrl crate base)⟩ := by
      simp [listed, ListJobsBuilder.stream, JobStreamState.state, hfilters]
    rw [hstate]
    exact streamed_linked hlinked hfuel hmore
  · have hstate : listed.state = ⟨[], .done⟩ := by
      simp [listed, ListJobsBuilder.stream, JobStreamState.state, hfilters]
    rw [hstate]
    exact ⟨[], polled_done rfl hfuel k, rfl⟩

end Listing

/-- A server with two jobs on the first page, none on the second, one on the third, and no fourth page. -/
def threePages (target : Target) : Except ZizqError (JobPage Nat) :=
  match target.url.query with
  | none => .ok ⟨[1, 2], ⟨some "/jobs?from=2", none⟩⟩
  | some query =>
    if query = "from=2".toList then .ok ⟨[], ⟨some "/jobs?from=b", none⟩⟩
    else if query = "from=b".toList then .ok ⟨[3], ⟨some "/jobs?from=3", none⟩⟩
    else .error (.transport "reset")

/-- A server with two records on the first page, and one on the second and last. -/
def twoPages (target : Target) : Except ZizqError (ErrorPage Nat) :=
  match target.url.query with
  | none => .ok ⟨[7, 8], ⟨some "/jobs/job/errors?from=8", none⟩⟩
  | some _ => .ok ⟨[9], ⟨none, none⟩⟩

/-- The empty page of jobs does not end the stream, the failing one does; and the records end with the last page. -/
theorem stream_chain_threePages :
    let base : AbsoluteUrl := ⟨.http, "host", none, ⟨[[]], by decide⟩, none⟩
    let list : ListJobsBuilder := { filters := { queue := some ["emails"] } }
    let history : ListErrorsBuilder := { jobId := "job" }
    let jobs (query : String) : Target :=
      ⟨{ requestUrl urlStandard base ["jobs"] with query := some query.toList }, []⟩
    let records (query : String) : Target :=
      ⟨{ requestUrl urlStandard base ["jobs", "job", "errors"] with query := some query.toList }, []⟩
    Streamed urlStandard base (jobTurn urlStandard base threePages) 4 5 (list.stream urlStandard base).state
        [some (.ok 1), some (.ok 2), some (.ok 3), some (.error (.transport "reset")), none]
        [⟨requestUrl urlStandard base ["jobs"], [("queue", "emails")]⟩, jobs "from=2", jobs "from=b", jobs "from=3"] ∧
      Streamed urlStandard base (errorTurn urlStandard base twoPages) 3 4 (history.stream urlStandard base).state
        [some (.ok 7), some (.ok 8), some (.ok 9), none]
        [⟨requestUrl urlStandard base ["jobs", "job", "errors"], []⟩, records "from=8"] := by
  intro base list history jobs records
  have hjobs : Linked urlStandard base threePages JobPage.jobs JobPage.pages (list.buildUrl urlStandard base)
      [(list.buildUrl urlStandard base, [1, 2]), (jobs "from=2", []), (jobs "from=b", [3])]
      (.failed (some (jobs "from=3")) (.transport "reset")) := by
    have hfirst : threePages (list.buildUrl urlStandard base) = .ok ⟨[1, 2], ⟨some "/jobs?from=2", none⟩⟩ := rfl
    have hempty : threePages (jobs "from=2") = .ok ⟨[], ⟨some "/jobs?from=b", none⟩⟩ := rfl
    have hthird : threePages (jobs "from=b") = .ok ⟨[3], ⟨some "/jobs?from=3", none⟩⟩ := rfl
    exact .page hfirst rfl rfl (.page hempty rfl rfl (.page hthird rfl rfl (.refused rfl)))
  have hrecords : Linked urlStandard base twoPages ErrorPage.errors ErrorPage.pages
      (history.buildUrl urlStandard base)
      [(history.buildUrl urlStandard base, [7, 8]), (records "from=8", [9])] .last := by
    have hfirst : twoPages (history.buildUrl urlStandard base) =
        .ok ⟨[7, 8], ⟨some "/jobs/job/errors?from=8", none⟩⟩ := rfl
    have hsecond : twoPages (records "from=8") = .ok ⟨[9], ⟨none, none⟩⟩ := rfl
    exact .page hfirst rfl rfl (.last hsecond rfl)
  exact ⟨(stream_chain urlStandard base threePages twoPages list history 4 5).1 rfl _ _ hjobs (by decide) nofun,
    (stream_chain urlStandard base threePages twoPages list history 3 4).2.2 _ _ hrecords (by decide) nofun⟩

end Zizq.Client
