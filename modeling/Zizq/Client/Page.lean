import Zizq.Client.Error
import Zizq.Client.Url

/-! Pagination links.

The first page of a listing is requested at a URL that `Client::url` builds, under
the path prefix of the base. A link of the server goes through `resolve_page_path`,
which joins it to the base by the URL standard: a link that starts with a slash
replaces the whole path. The two agree exactly when the base has no prefix
(`samePage_iff`). -/
namespace Zizq.Client
open Data

inductive Scheme where
  | http | https
deriving DecidableEq

def Scheme.text : Scheme → String
  | .http => "http"
  | .https => "https"

def Scheme.defaultPort : Scheme → UInt16
  | .http => 80
  | .https => 443

/-- A parsed http URL; its port is left out where it is the scheme's own. -/
structure AbsoluteUrl where
  scheme : Scheme
  host : String
  port : Option UInt16
  path : Url
  query : Option (List Char)

namespace AbsoluteUrl

def portOrKnownDefault (url : AbsoluteUrl) : UInt16 := url.port.getD url.scheme.defaultPort

def text (url : AbsoluteUrl) : String :=
  url.scheme.text ++ "://" ++ url.host ++ (url.port.elim "" fun port => ":" ++ toString port.toNat) ++
    String.ofList url.path.path ++ (url.query.elim "" fun query => "?" ++ String.ofList query)

end AbsoluteUrl

/-! ### Links -/

/-- The characters that the query of an http URL holds as they are. -/
def isQueryChar (c : Char) : Bool :=
  33 ≤ c.toNat && c.toNat ≤ 126 && !(['"', '#', '\'', '<', '>'].contains c)

/-- A link `/s1/…/sn?query`, in the form that a parsed URL has: no segment is `.` or `..` or holds a tab or a
line end, and it does not start with two slashes, which would make a host of the first name. -/
structure PageLink where
  names : List String
  query : List Char
  named : names ≠ []
  rooted : names.head? = some "" → names = [""]
  normal : ∀ name ∈ names, isPlain name = true
  querySafe : ∀ c ∈ query, isQueryChar c = true

namespace PageLink
variable (set : SegmentSet)

def path (link : PageLink) : Url where
  segments := link.names.map (encodeSegment set)
  clean s hs := by
    obtain ⟨name, -, rfl⟩ := List.mem_map.mp hs
    exact slash_not_mem_encodeSegment set name

def text (link : PageLink) : List Char := (link.path set).path ++ '?' :: link.query

end PageLink

/-- The `url` crate: the bytes that it escapes in a segment, and how it joins a reference to a base. -/
structure UrlCrate extends SegmentSet where
  join : AbsoluteUrl → List Char → Except String AbsoluteUrl
  join_rooted : ∀ (base : AbsoluteUrl) (link : PageLink), join base (link.text toSegmentSet) =
    .ok { base with path := link.path toSegmentSet, query := some link.query }

section Resolve
variable (crate : UrlCrate) (base : AbsoluteUrl)

/-- `Client::url`, with the parts of the base that it leaves alone. -/
def requestUrl (segments : List String) : AbsoluteUrl :=
  { base with path := url crate.toSegmentSet base.path segments }

def resolvePagePath (path : List Char) : Except ZizqError AbsoluteUrl :=
  match crate.join base path with
  | .error source => .error (.invalidUrl source)
  | .ok resolved =>
    if resolved.host ≠ base.host ∨ resolved.portOrKnownDefault ≠ base.portOrKnownDefault then
      .error (.decode
        ("page path resolved to a different host than the configured base URL: " ++ resolved.text))
    else .ok resolved

/-- Whatever a path resolves to is on the base's host and port. -/
theorem resolvePagePath_host {path : List Char} {resolved : AbsoluteUrl}
    (h : resolvePagePath crate base path = .ok resolved) :
    resolved.host = base.host ∧ resolved.portOrKnownDefault = base.portOrKnownDefault := by
  unfold resolvePagePath at h
  split at h
  · cases h
  · split at h
    · cases h
    · next hsame =>
      obtain rfl := Except.ok.inj h
      simpa [not_or] using hsame

theorem resolvePagePath_link (link : PageLink) :
    resolvePagePath crate base (link.text crate.toSegmentSet) =
      .ok { base with path := link.path crate.toSegmentSet, query := some link.query } := by
  rw [resolvePagePath, crate.join_rooted]
  exact if_neg (by simp [AbsoluteUrl.portOrKnownDefault])

/-- The link resolves to the URL that `Client::url` builds for its segments, with the link's query. -/
def SamePage (link : PageLink) : Prop :=
  ∃ resolved, resolvePagePath crate base (link.text crate.toSegmentSet) = .ok resolved ∧
    resolved.path.path = (requestUrl crate base link.names).path.path ∧ resolved.query = some link.query

end Resolve

/-! ### Where they agree -/

theorem url_link_segments (set : SegmentSet) (base : Url) (link : PageLink) :
    (url set base link.names).segments =
      base.popIfEmpty.rooted ++ link.names.map (encodeSegment set) := by
  obtain ⟨name, rest, hnames⟩ := List.exists_cons_of_ne_nil link.named
  have hnormal := link.normal
  rw [hnames, List.forall_mem_cons] at hnormal
  have hpush : (base.popIfEmpty.push set name).segments = _ := push_segments set hnormal.1
  rw [hnames]
  show ((base.popIfEmpty.push set name).extend set rest).segments = _
  by_cases hname : name = ""
  · have hrest : rest = [] := by
      have hroot := link.rooted (by rw [hnames, hname]; rfl)
      rw [hnames] at hroot
      exact (List.cons.inj hroot).2
    rw [hrest]
    exact hpush
  · have hsome : ∃ t ∈ (base.popIfEmpty.push set name).segments, t ≠ [] :=
      ⟨encodeSegment set name, by simp [hpush], encodeSegment_ne_nil set hname⟩
    rw [extend_segments set hsome hnormal.2, hpush, List.map_cons, List.append_assoc, List.singleton_append]

/-- **Main theorem.** A link resolves to the URL that `Client::url` builds for its segments exactly when
the base has no path prefix: for a base with one, no link does. -/
theorem samePage_iff (crate : UrlCrate) (base : AbsoluteUrl) (link : PageLink) :
    SamePage crate base link ↔ base.path.popIfEmpty.rooted = [] := by
  have hsegments := url_link_segments crate.toSegmentSet base.path link
  have hlink : (link.path crate.toSegmentSet).segments ≠ [] := by
    simpa [PageLink.path] using link.named
  have hurl : (url crate.toSegmentSet base.path link.names).segments ≠ [] := by
    rw [hsegments]
    exact List.append_ne_nil_of_right_ne_nil _ hlink
  rw [SamePage, resolvePagePath_link]
  simp only [Except.ok.injEq, exists_eq_left', and_true]
  rw [requestUrl, path_inj hlink hurl, hsegments]
  exact List.self_eq_append_left

/-! ### The standard's joining -/

/-- How the standard joins a reference that starts with one slash and is in normal form. -/
def joinRooted (base : AbsoluteUrl) : List Char → Except String AbsoluteUrl
  | '/' :: rest =>
    let segments := (rest.takeWhile (· ≠ '?')).splitOn '/'
    if clean : ∀ s ∈ segments, '/' ∉ s then
      .ok { base with path := ⟨segments, clean⟩, query := (rest.dropWhile (· ≠ '?')).tail? }
    else .error "path segment"
  | _ => .error "relative reference"

theorem question_not_mem_encodeSegment (set : SegmentSet) (segment : String) :
    '?' ∉ encodeSegment set segment :=
  Percent.not_mem_encode (by decide) set.question (by decide) (by decide) _

theorem flatMap_slash {segments : List (List Char)} (h : segments ≠ []) :
    segments.flatMap ('/' :: ·) = '/' :: ['/'].intercalate segments := by
  induction segments with
  | nil => exact absurd rfl h
  | cons s rest ih =>
    cases rest with
    | nil => simp
    | cons t rest => rw [List.flatMap_cons, ih (List.cons_ne_nil _ _), List.intercalate_cons_cons]; simp

theorem joinRooted_link (set : SegmentSet) (base : AbsoluteUrl) (link : PageLink) :
    joinRooted base (link.text set) =
      .ok { base with path := link.path set, query := some link.query } := by
  have hsegments : (link.path set).segments ≠ [] := by simpa [PageLink.path] using link.named
  have hquestion : ∀ c ∈ ['/'].intercalate (link.path set).segments, c ≠ '?' := by
    intro c hc heq
    have hmem : '?' ∈ (link.path set).segments.flatMap ('/' :: ·) :=
      flatMap_slash hsegments ▸ List.mem_cons_of_mem _ (heq ▸ hc)
    obtain ⟨s, hs, hquestion⟩ := List.mem_flatMap.mp hmem
    obtain ⟨name, -, rfl⟩ := List.mem_map.mp hs
    rcases List.mem_cons.mp hquestion with hslash | hquestion
    · cases hslash
    · exact question_not_mem_encodeSegment set name hquestion
  have htext : link.text set =
      '/' :: (['/'].intercalate (link.path set).segments ++ '?' :: link.query) := by
    rw [PageLink.text, Url.path, if_neg hsegments, flatMap_slash hsegments, List.cons_append]
  have htake : (['/'].intercalate (link.path set).segments ++ '?' :: link.query).takeWhile (· ≠ '?') =
      ['/'].intercalate (link.path set).segments := by
    rw [List.takeWhile_append_of_pos (by simpa using hquestion)]
    simp
  have hdrop : (['/'].intercalate (link.path set).segments ++ '?' :: link.query).dropWhile (· ≠ '?') =
      '?' :: link.query := by
    rw [List.dropWhile_append_of_pos (by simpa using hquestion)]
    simp
  have hsplit := List.splitOn_intercalate '/' (link.path set).clean hsegments
  rw [htext, joinRooted]
  simp only [htake, hdrop, hsplit]
  rw [dif_pos (link.path set).clean]
  rfl

/-- The crate on the segments and the links of http URLs. -/
def urlStandard : UrlCrate where
  toSegmentSet := specialPathSegment
  join := joinRooted
  join_rooted := joinRooted_link specialPathSegment

/-- Behind the prefix `/api` the second page of a listing is requested without it. -/
theorem not_samePage_api : ¬ ∀ (crate : UrlCrate) (base : AbsoluteUrl) (link : PageLink),
    base.path.popIfEmpty.rooted ≠ [] → SamePage crate base link := by
  intro h
  let base : AbsoluteUrl := ⟨.http, "host", none, ⟨["api".toList], by decide⟩, none⟩
  let link : PageLink := ⟨["jobs"], "from=job-50".toList, by decide, by decide, by decide,
    List.all_eq_true.mp rfl⟩
  obtain ⟨resolved, hresolved, hpath, -⟩ := h urlStandard base link (by decide)
  rw [resolvePagePath_link] at hresolved
  obtain rfl := Except.ok.inj hresolved
  exact absurd hpath (by decide)

end Zizq.Client
