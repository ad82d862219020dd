import Mathlib.Data.String.Basic
import Zizq.Data.Delimited
import Zizq.Data.Percent

/-! Request URLs.

`Client.url` appends path segments to the base URL. The `url` crate skips a segment
`.` or `..`; any other it reads as it does a URL, where tabs and line ends are dropped
and what is then a dot segment is taken for one, and percent-encodes the rest, the
reserved characters among the escaped ones. The client checks no name before it becomes
a segment, so a call on one resource can lose a segment and arrive as a call on a
collection. `addresses_iff` says for which names it does not. -/
namespace Zizq.Client
open Data

inductive Method where
  | get | post | put | patch | delete
deriving DecidableEq

def utf8 (s : String) : List UInt8 := s.toUTF8.data.toList

/-- The bytes that the `url` crate escapes in a path segment. -/
structure SegmentSet where
  escape : UInt8 → Bool
  slash : escape 47 = true
  percent : escape 37 = true
  question : escape 63 = true
  hash : escape 35 = true

/-- A URL by the segments of its path, none of which holds a slash. -/
structure Url where
  segments : List (List Char)
  clean : ∀ s ∈ segments, '/' ∉ s

def Url.path (url : Url) : List Char :=
  if url.segments = [] then ['/'] else url.segments.flatMap ('/' :: ·)

def Url.popIfEmpty (url : Url) : Url where
  segments := if url.segments.getLast? = some [] then url.segments.dropLast else url.segments
  clean s hs := by
    split at hs
    · exact url.clean s ((List.dropLast_sublist _).subset hs)
    · exact url.clean s hs

/-- The segments that `PathSegmentsMut::extend` skips. -/
def isDot (segment : String) : Bool := segment = "." || segment = ".."

def isTabOrNewline (c : Char) : Bool := c = '\t' || c = '\n' || c = '\r'

/-- What is left of a segment as the parser reads it. -/
def stripSegment (segment : String) : String := String.ofList (segment.toList.filter (!isTabOrNewline ·))

section Extend
variable (set : SegmentSet)

def encodeSegment (segment : String) : List Char := Percent.encode set.escape (utf8 segment)

theorem slash_not_mem_encodeSegment (segment : String) : '/' ∉ encodeSegment set segment :=
  Percent.not_mem_encode (by decide) set.slash (by decide) (by decide) _

/-- The segments a further one is added to: the path `/` takes no slash in between. -/
def Url.rooted (url : Url) : List (List Char) := if url.segments = [[]] then [] else url.segments

/-- The segments after a text: a dot ends the path in a slash, two dots drop the last segment before they do. -/
def Url.pushed (url : Url) (text : String) : List (List Char) :=
  if text = "." then url.rooted ++ [[]]
  else if text = ".." then url.rooted.dropLast ++ [[]]
  else url.rooted ++ [encodeSegment set text]

theorem Url.rooted_clean (url : Url) : ∀ s ∈ url.rooted, '/' ∉ s := by
  intro s hs
  rw [rooted] at hs
  split at hs
  · cases hs
  · exact url.clean s hs

theorem Url.pushed_clean (url : Url) (text : String) : ∀ s ∈ url.pushed set text, '/' ∉ s := by
  intro s hs
  unfold pushed at hs
  split at hs
  · rcases List.mem_append.mp hs with hs | hs
    · exact url.rooted_clean s hs
    · exact List.mem_singleton.mp hs ▸ List.not_mem_nil
  · split at hs
    · rcases List.mem_append.mp hs with hs | hs
      · exact url.rooted_clean s (List.dropLast_subset _ hs)
      · exact List.mem_singleton.mp hs ▸ List.not_mem_nil
    · rcases List.mem_append.mp hs with hs | hs
      · exact url.rooted_clean s hs
      · exact List.mem_singleton.mp hs ▸ slash_not_mem_encodeSegment set text

def Url.push (url : Url) (segment : String) : Url :=
  if isDot segment then url else ⟨url.pushed set (stripSegment segment), url.pushed_clean set _⟩

def Url.extend (url : Url) (segments : List String) : Url := segments.foldl (Url.push set) url

/-- `Client::url`, for a client configured with `base`. -/
def url (base : Url) (segments : List String) : Url := base.popIfEmpty.extend set segments

end Extend

/-! ### Calls -/

inductive Segment where
  | fixed (text : String)
  | name (text : String)

def Segment.text : Segment → String
  | .fixed text => text
  | .name text => text

/-- The calls on a single resource, with the names that go into their paths. -/
inductive Call where
  | getJob (id : String)
  | patchJob (id : String)
  | deleteJob (id : String)
  | reportSuccess (id : String)
  | reportFailure (id : String)
  | listErrors (id : String)
  | getError (id : String) (attempt : UInt32)
  | getCron (name : String)
  | replaceCron (name : String)
  | deleteCron (name : String)
  | pauseCron (name : String)
  | resumeCron (name : String)
  | addCronEntry (group : String)
  | getCronEntry (group entry : String)
  | putCronEntry (group entry : String)
  | deleteCronEntry (group entry : String)
  | pauseCronEntry (group entry : String)
  | resumeCronEntry (group entry : String)
  | getBudget (key : String)
  | createBudget (key : String)
  | putBudget (key : String)
  | updateBudget (key : String)
  | deleteBudget (key : String)
  | bindBudget (id key : String)
  | rebindBudget (id key : String)
  | setBudgetCost (id key : String)
  | unbindBudget (id key : String)
  | replaceBudgets (id : String)
  | bindAllJobsBudget (key : String)
  | rebindAllJobsBudget (key : String)
  | setAllJobsBudgetCost (key : String)
  | unbindAllJobsBudget (key : String)

def Call.method : Call → Method
  | .getJob _ | .listErrors _ | .getError _ _ | .getCron _ | .getCronEntry _ _ | .getBudget _ => .get
  | .reportSuccess _ | .reportFailure _ | .addCronEntry _ | .createBudget _ | .bindBudget _ _
  | .bindAllJobsBudget _ => .post
  | .replaceCron _ | .putCronEntry _ _ | .putBudget _ | .rebindBudget _ _ | .replaceBudgets _
  | .rebindAllJobsBudget _ => .put
  | .patchJob _ | .pauseCron _ | .resumeCron _ | .pauseCronEntry _ _ | .resumeCronEntry _ _
  | .updateBudget _ | .setBudgetCost _ _ | .setAllJobsBudgetCost _ => .patch
  | .deleteJob _ | .deleteCron _ | .deleteCronEntry _ _ | .deleteBudget _ | .unbindBudget _ _
  | .unbindAllJobsBudget _ => .delete

def Call.segments : Call → List Segment
  | .getJob id | .patchJob id | .deleteJob id => [.fixed "jobs", .name id]
  | .reportSuccess id => [.fixed "jobs", .name id, .fixed "success"]
  | .reportFailure id => [.fixed "jobs", .name id, .fixed "failure"]
  | .listErrors id => [.fixed "jobs", .name id, .fixed "errors"]
  | .getError id attempt => [.fixed "jobs", .name id, .fixed "errors", .fixed (toString attempt.toNat)]
  | .getCron name | .replaceCron name | .deleteCron name | .pauseCron name | .resumeCron name =>
    [.fixed "crons", .name name]
  | .addCronEntry group => [.fixed "crons", .name group, .fixed "entries"]
  | .getCronEntry group entry | .putCronEntry group entry | .deleteCronEntry group entry
  | .pauseCronEntry group entry | .resumeCronEntry group entry =>
    [.fixed "crons", .name group, .fixed "entries", .name entry]
  | .getBudget key | .createBudget key | .putBudget key | .updateBudget key | .deleteBudget key =>
    [.fixed "budgets", .name key]
  | .bindBudget id key | .rebindBudget id key | .setBudgetCost id key | .unbindBudget id key =>
    [.fixed "jobs", .name id, .fixed "budgets", .name key]
  | .replaceBudgets id => [.fixed "jobs", .name id, .fixed "budgets"]
  | .bindAllJobsBudget key | .rebindAllJobsBudget key | .setAllJobsBudgetCost key
  | .unbindAllJobsBudget key => [.fixed "jobs", .fixed "budgets", .name key]

/-- The calls that delete or clear a whole collection. -/
inductive Collection where
  | deleteAllJobs
  | deleteAllCrons
  | unbindAllBudgets (id : String)
  | clearAllJobsBudgets

def Collection.method : Collection → Method := fun _ => .delete

def Collection.segments : Collection → List Segment
  | .deleteAllJobs => [.fixed "jobs"]
  | .deleteAllCrons => [.fixed "crons"]
  | .unbindAllBudgets id => [.fixed "jobs", .name id, .fixed "budgets"]
  | .clearAllJobsBudgets => [.fixed "jobs", .fixed "budgets"]

/-- The URL that a call is sent to. -/
def target (set : SegmentSet) (base : Url) (segments : List Segment) : Url :=
  url set base (segments.map Segment.text)

/-- The names that a call is given. -/
def Call.names (call : Call) : List String :=
  call.segments.filterMap fun
    | .name text => some text
    | .fixed _ => none

/-- The path has the base path's segments and then one segment for each of the call, which decodes to
it, and the request is not that of a call on a collection. -/
def Addresses (set : SegmentSet) (base : Url) (call : Call) : Prop :=
  (target set base call.segments).segments.map Percent.decode =
      base.popIfEmpty.rooted.map Percent.decode ++ call.segments.map (fun s => utf8 s.text) ∧
    ∀ op : Collection, (call.method, (target set base call.segments).path) ≠
      (op.method, (target set base op.segments).path)

/-- The segment is not skipped, and the parser drops nothing of it. -/
def isPlain (segment : String) : Bool := !isDot segment && !segment.toList.any isTabOrNewline

/-- No name is skipped or read otherwise, and none makes a job out of the budgets of all jobs or the other way
round. -/
def Clear (call : Call) : Prop :=
  (∀ name ∈ call.names, isPlain name = true) ∧
    match call with
    | .deleteJob id => id ≠ "budgets"
    | .unbindAllJobsBudget key => key ≠ "budgets"
    | _ => True

/-! ### Segments of a target -/

theorem utf8_injective : utf8.Injective := by
  intro s t h
  have hbytes : s.toUTF8 = t.toUTF8 := ByteArray.ext (Array.toList_inj.mp h)
  rwa [String.toUTF8_eq_toByteArray, String.toUTF8_eq_toByteArray, String.toByteArray_inj] at hbytes

section Target
variable (set : SegmentSet)

theorem encodeSegment_injective : (encodeSegment set).Injective :=
  (Percent.encode_injective set.percent).comp utf8_injective

theorem encodeSegment_ne_nil {s : String} (hs : s ≠ "") : encodeSegment set s ≠ [] := fun h =>
  hs (encodeSegment_injective set h)

theorem isPlain_iff {s : String} : isPlain s = true ↔ isDot s = false ∧ stripSegment s = s := by
  have hstrip : stripSegment s = s ↔ ∀ c ∈ s.toList, (!isTabOrNewline c) = true := by
    rw [← List.filter_eq_self, ← String.toList_inj, stripSegment, String.toList_ofList]
  rw [hstrip, isPlain, Bool.and_eq_true, Bool.not_eq_true', Bool.not_eq_true', List.any_eq_false]
  simp

theorem pushed_plain {url : Url} {segment : String} (h : isPlain segment = true) :
    url.pushed set segment = url.rooted ++ [encodeSegment set segment] := by
  have hdot := (isPlain_iff.mp h).1
  simp only [isDot, Bool.or_eq_false_iff, decide_eq_false_iff_not] at hdot
  rw [Url.pushed, if_neg hdot.1, if_neg hdot.2]

theorem push_segments {url : Url} {segment : String} (h : isPlain segment = true) :
    (url.push set segment).segments = url.rooted ++ [encodeSegment set segment] := by
  obtain ⟨hdot, hstrip⟩ := isPlain_iff.mp h
  rw [Url.push, if_neg (by simp [hdot])]
  show url.pushed set (stripSegment segment) = _
  rw [hstrip, pushed_plain set h]

theorem rooted_eq {url : Url} (h : ∃ s ∈ url.segments, s ≠ []) : url.rooted = url.segments := by
  obtain ⟨s, hs, hne⟩ := h
  refine if_neg fun heq => hne ?_
  rw [heq] at hs
  exact List.mem_singleton.mp hs

theorem extend_segments {url : Url} (hurl : ∃ s ∈ url.segments, s ≠ []) {segments : List String}
    (hplain : ∀ s ∈ segments, isPlain s = true) :
    (url.extend set segments).segments = url.segments ++ segments.map (encodeSegment set) := by
  induction segments generalizing url with
  | nil => simp [Url.extend]
  | cons segment segments ih =>
    obtain ⟨hsegment, hsegments⟩ := List.forall_mem_cons.mp hplain
    obtain ⟨s, hs, hne⟩ := hurl
    have hpush : (url.push set segment).segments = _ := push_segments set hsegment
    rw [rooted_eq ⟨s, hs, hne⟩] at hpush
    show ((url.push set segment).extend set segments).segments = _
    rw [ih ⟨s, by rw [hpush]; exact List.mem_append_left _ hs, hne⟩ hsegments, hpush, List.map_cons,
      List.append_assoc, List.singleton_append]

/-- The call starts with a fixed segment. -/
def Rooted (segments : List Segment) : Prop :=
  ∃ s rest, segments = .fixed s :: rest ∧ s ≠ "" ∧ isPlain s = true

theorem target_segments (base : Url) {segments : List Segment} (h : Rooted segments)
    (hplain : ∀ s ∈ segments, isPlain s.text = true) :
    (target set base segments).segments =
      base.popIfEmpty.rooted ++ (segments.map Segment.text).map (encodeSegment set) := by
  obtain ⟨s, rest, rfl, hs, -⟩ := h
  obtain ⟨hfirst, hrest⟩ := List.forall_mem_cons.mp hplain
  have hpush : (base.popIfEmpty.push set s).segments = _ := push_segments set hfirst
  have hsome : ∃ t ∈ (base.popIfEmpty.push set s).segments, t ≠ [] :=
    ⟨encodeSegment set s, by simp [hpush], encodeSegment_ne_nil set hs⟩
  show ((base.popIfEmpty.push set s).extend set _).segments = _
  rw [extend_segments set hsome (List.forall_mem_map.mpr hrest), hpush, List.map_cons, List.map_cons,
    List.append_assoc, List.singleton_append]
  rfl

theorem path_inj {url url' : Url} (h : url.segments ≠ []) (h' : url'.segments ≠ []) :
    url.path = url'.path ↔ url.segments = url'.segments := by
  constructor
  · intro heq
    rw [Url.path, Url.path, if_neg h, if_neg h'] at heq
    exact Delimited.flatMap_sep_inj url.clean url'.clean heq
  · intro heq
    rw [Url.path, Url.path, heq]

/-! ### Segments that are not plain -/

/-- What a segment that is not skipped becomes, unless it drops another one. -/
def readSegment (segment : String) : List Char :=
  if stripSegment segment = "." then [] else encodeSegment set (stripSegment segment)

theorem rooted_length_le (url : Url) : url.rooted.length ≤ url.segments.length := by
  rw [Url.rooted]
  split
  · exact Nat.zero_le _
  · exact le_rfl

/-- A segment adds at most one to the path, and if it adds one, it is read at the end. -/
theorem rooted_push (url : Url) (segment : String) :
    (url.push set segment).rooted.length ≤ url.rooted.length ∨
      isDot segment = false ∧ (url.push set segment).segments = url.rooted ++ [readSegment set segment] := by
  by_cases hdot : isDot segment = true
  · exact .inl (by rw [Url.push, if_pos hdot])
  · have hpush : (url.push set segment).segments = url.pushed set (stripSegment segment) := by
      rw [Url.push, if_neg hdot]
    rw [Url.pushed] at hpush
    by_cases hone : stripSegment segment = "."
    · rw [if_pos hone] at hpush
      exact .inr ⟨by simpa using hdot, by rw [hpush, readSegment, if_pos hone]⟩
    · rw [if_neg hone] at hpush
      by_cases htwo : stripSegment segment = ".."
      · rw [if_pos htwo] at hpush
        refine .inl ?_
        by_cases hnil : url.rooted = []
        · have hroot : (url.push set segment).rooted = [] := if_pos (by rw [hpush, hnil]; rfl)
          rw [hroot]
          exact Nat.zero_le _
        · refine (rooted_length_le _).trans ?_
          have hpos := List.length_pos_iff.mpr hnil
          rw [hpush, List.length_append, List.length_dropLast, List.length_singleton]
          omega
      · rw [if_neg htwo] at hpush
        exact .inr ⟨by simpa using hdot, by rw [hpush, readSegment, if_neg hone]⟩

theorem rooted_push_length_le (url : Url) (segment : String) :
    (url.push set segment).rooted.length ≤ url.rooted.length + 1 := by
  rcases rooted_push set url segment with hle | ⟨-, heq⟩
  · exact Nat.le_succ_of_le hle
  · refine (rooted_length_le _).trans ?_
    rw [heq, List.length_append, List.length_singleton]

theorem rooted_extend_length_le (url : Url) (segments : List String) :
    (url.extend set segments).rooted.length ≤ url.rooted.length + segments.length := by
  induction segments generalizing url with
  | nil => exact le_rfl
  | cons segment segments ih =>
    have hpush := rooted_push_length_le set url segment
    have hrest := ih (url.push set segment)
    rw [List.length_cons]
    exact hrest.trans (by omega)

/-- A path that has a segment for each that was added has them as they are read. -/
theorem rooted_extend (url : Url) (segments : List String)
    (h : (url.extend set segments).rooted.length = url.rooted.length + segments.length) :
    (url.extend set segments).rooted = url.rooted ++ segments.map (readSegment set) ∧
      ∀ s ∈ segments, isDot s = false := by
  induction segments generalizing url with
  | nil => exact ⟨by simp [Url.extend], nofun⟩
  | cons segment segments ih =>
    have hrest := rooted_extend_length_le set (url.push set segment) segments
    change ((url.push set segment).extend set segments).rooted.length = _ at h
    rw [List.length_cons] at h
    rcases rooted_push set url segment with hle | ⟨hdot, heq⟩
    · omega
    · have hpush := rooted_push_length_le set url segment
      have hrooted : (url.push set segment).rooted = (url.push set segment).segments := by
        refine if_neg fun hempty => ?_
        have hnil : (url.push set segment).rooted = [] := if_pos hempty
        rw [hnil, List.length_nil] at hrest
        omega
      obtain ⟨hsegments, hdots⟩ := ih (url.push set segment) (by omega)
      refine ⟨?_, List.forall_mem_cons.mpr ⟨hdot, hdots⟩⟩
      show ((url.push set segment).extend set segments).rooted = _
      rw [hsegments, hrooted, heq, List.map_cons, List.append_assoc, List.singleton_append]

/-- A segment that is read as it was written is plain. -/
theorem isPlain_of_decode {segment : String} (hdot : isDot segment = false)
    (h : Percent.decode (readSegment set segment) = utf8 segment) : isPlain segment = true := by
  refine isPlain_iff.mpr ⟨hdot, utf8_injective ?_⟩
  rw [readSegment] at h
  split at h
  · next hstrip =>
    obtain rfl : segment = "" := utf8_injective h.symm
    exact absurd hstrip (by decide)
  · exact (Percent.decode_encode set.percent _).symm.trans h

theorem plain_of_decode_target (base : Url) {segments : List Segment} (hrooted : Rooted segments)
    (h : (target set base segments).segments.map Percent.decode =
      base.popIfEmpty.rooted.map Percent.decode ++ segments.map fun s => utf8 s.text) :
    ∀ s ∈ segments, isPlain s.text = true := by
  have hne : (target set base segments).segments ≠ [[]] := by
    intro hnil
    obtain ⟨s, rest, rfl, hs, -⟩ := hrooted
    rw [hnil] at h
    have hmem : utf8 s ∈ [[]].map Percent.decode := h ▸ by simp [Segment.text]
    exact hs (utf8_injective (List.mem_singleton.mp hmem))
  have htarget : (target set base segments).rooted = (target set base segments).segments := if_neg hne
  obtain ⟨hread, hdots⟩ := rooted_extend set base.popIfEmpty (segments.map Segment.text) (by
    have hlength := congrArg List.length h
    simp only [List.length_map, List.length_append] at hlength
    rw [List.length_map]
    exact htarget ▸ hlength)
  have hdecode : (segments.map Segment.text).map (fun s => Percent.decode (readSegment set s)) =
      (segments.map Segment.text).map utf8 := by
    have hsegments : (target set base segments).segments = _ := htarget.symm.trans hread
    rw [hsegments, List.map_append, List.append_cancel_left_eq, List.map_map] at h
    simpa [Function.comp_def] using h
  intro s hs
  have hmem := List.mem_map_of_mem (f := Segment.text) hs
  exact isPlain_of_decode set (hdots _ hmem) (List.map_inj_left.mp hdecode _ hmem)

end Target

/-! ### Which names reach their resource -/

theorem mem_names {call : Call} {text : String} : text ∈ call.names ↔ .name text ∈ call.segments := by
  rw [Call.names, List.mem_filterMap]
  constructor
  · rintro ⟨s, hs, heq⟩
    cases s with
    | fixed text' => cases heq
    | name text' => exact Option.some.inj heq ▸ hs
  · intro h
    exact ⟨_, h, rfl⟩

theorem fixed_plain {call : Call} {text : String} (h : .fixed text ∈ call.segments) :
    isPlain text = true := by
  have hdigits (n : Nat) : isPlain (toString n) = true := by
    have hdigit : ∀ c ∈ (toString n).toList, c.isDigit = true := by
      intro c hc
      rw [Nat.toString_eq_repr, Nat.toList_repr] at hc
      exact Nat.isDigit_of_mem_toDigits (by decide) (by decide) hc
    have hnot {c : Char} (hc : c.isDigit = false) : c ∉ (toString n).toList := fun hmem =>
      absurd ((hdigit c hmem).symm.trans hc) (by decide)
    have hne {s : String} (hs : ∃ c ∈ s.toList, c.isDigit = false) : toString n ≠ s := by
      obtain ⟨c, hc, hdigit⟩ := hs
      exact fun heq => hnot hdigit (heq ▸ hc)
    simp only [isPlain, isDot, Bool.and_eq_true, Bool.not_eq_true', Bool.or_eq_false_iff, decide_eq_false_iff_not,
      List.any_eq_false]
    refine ⟨⟨hne ⟨'.', by decide, rfl⟩, hne ⟨'.', by decide, rfl⟩⟩, fun c hc htab => ?_⟩
    simp only [isTabOrNewline, Bool.or_eq_true, decide_eq_true_eq] at htab
    have hdigit : c.isDigit = false := by rcases htab with (rfl | rfl) | rfl <;> rfl
    exact hnot hdigit hc
  cases call with
  | getError id attempt =>
    simp only [Call.segments, List.mem_cons, Segment.fixed.injEq, reduceCtorEq, List.not_mem_nil,
      or_false, false_or] at h
    rcases h with rfl | rfl | rfl
    · decide
    · decide
    · exact hdigits _
  | _ =>
    simp only [Call.segments, List.mem_cons, Segment.fixed.injEq, reduceCtorEq, List.not_mem_nil,
      or_false, false_or] at h
    first
      | (subst h; decide)
      | (rcases h with rfl | rfl <;> decide)

theorem plain_iff (call : Call) :
    (∀ s ∈ call.segments, isPlain s.text = true) ↔ ∀ name ∈ call.names, isPlain name = true := by
  constructor
  · exact fun h name hname => h _ (mem_names.mp hname)
  · intro h s hs
    cases s with
    | fixed text => exact fixed_plain hs
    | name text => exact h text (mem_names.mpr hs)

theorem call_rooted (call : Call) : Rooted call.segments := by
  cases call <;> exact ⟨_, _, rfl, by decide, by decide⟩

theorem call_eq_of_delete {call : Call} (h : call.method = .delete) :
    (∃ id, call = .deleteJob id) ∨ (∃ name, call = .deleteCron name) ∨
      (∃ group entry, call = .deleteCronEntry group entry) ∨ (∃ key, call = .deleteBudget key) ∨
      (∃ id key, call = .unbindBudget id key) ∨ ∃ key, call = .unbindAllJobsBudget key := by
  cases call <;> simp_all [Call.method]

/-- The segments that can be left of a collection's. -/
inductive Reduced : List String → Prop where
  | jobs : Reduced ["jobs"]
  | crons : Reduced ["crons"]
  | allJobs : Reduced ["jobs", "budgets"]
  | job (id : String) : Reduced ["jobs", id, "budgets"]
  | shortened : Reduced ["", "budgets"]
  | root : Reduced ["budgets"]

section Collections
variable (set : SegmentSet) (base : Url)

/-- What is left of `jobs` and a name: the name's segment can be missing, and two dots drop `jobs` with it. -/
theorem rooted_push_jobs (id : String) : ∃ texts, Reduced (texts ++ ["budgets"]) ∧
    ((base.popIfEmpty.push set "jobs").push set id).rooted =
      base.popIfEmpty.rooted ++ texts.map (encodeSegment set) := by
  let jobs := base.popIfEmpty.push set "jobs"
  have hfirst : jobs.segments = base.popIfEmpty.rooted ++ [encodeSegment set "jobs"] :=
    push_segments set (by decide)
  have hrooted : jobs.rooted = jobs.segments :=
    rooted_eq ⟨encodeSegment set "jobs", by simp [hfirst], encodeSegment_ne_nil set (by decide)⟩
  have hempty : encodeSegment set "" = [] := rfl
  by_cases hdot : isDot id = true
  · refine ⟨["jobs"], .allJobs, ?_⟩
    rw [Url.push, if_pos hdot, hrooted, hfirst]
    rfl
  have hpush : (jobs.push set id).segments = jobs.pushed set (stripSegment id) := by rw [Url.push, if_neg hdot]
  rw [Url.pushed, hrooted, hfirst, List.dropLast_concat] at hpush
  by_cases htwo : stripSegment id = ".."
  · rw [if_neg (by rw [htwo]; decide), if_pos htwo] at hpush
    by_cases hroot : base.popIfEmpty.rooted = []
    · have hnil : (jobs.push set id).rooted = [] := if_pos (by rw [hpush, hroot]; rfl)
      exact ⟨[], .root, by rw [hnil, hroot]; rfl⟩
    · have hkept : (jobs.push set id).rooted = (jobs.push set id).segments :=
        if_neg fun h => hroot (List.append_eq_singleton_iff.mp (hpush.symm.trans h) |>.elim And.left
          fun h => absurd h.2 (by simp))
      exact ⟨[""], .shortened, by rw [hkept, hpush, List.map_singleton, hempty]⟩
  · obtain ⟨x, hx⟩ : ∃ x, (jobs.push set id).segments =
        base.popIfEmpty.rooted ++ [encodeSegment set "jobs", encodeSegment set x] := by
      by_cases hone : stripSegment id = "."
      · exact ⟨"", by rw [hpush, if_pos hone, hempty]; simp⟩
      · exact ⟨stripSegment id, by rw [hpush, if_neg hone, if_neg htwo]; simp⟩
    have hkept : (jobs.push set id).rooted = (jobs.push set id).segments :=
      rooted_eq ⟨encodeSegment set "jobs", by simp [hx], encodeSegment_ne_nil set (by decide)⟩
    exact ⟨["jobs", x], .job x, hkept.trans hx⟩

theorem collection_segments (op : Collection) : ∃ texts, Reduced texts ∧
    (target set base op.segments).segments = base.popIfEmpty.rooted ++ texts.map (encodeSegment set) := by
  have hplain {texts : List Segment} (hrooted : Rooted texts) (h : ∀ s ∈ texts, isPlain s.text = true) :=
    target_segments set base hrooted h
  cases op with
  | deleteAllJobs => exact ⟨_, .jobs, hplain ⟨_, _, rfl, by decide, by decide⟩ (by decide)⟩
  | deleteAllCrons => exact ⟨_, .crons, hplain ⟨_, _, rfl, by decide, by decide⟩ (by decide)⟩
  | clearAllJobsBudgets => exact ⟨_, .allJobs, hplain ⟨_, _, rfl, by decide, by decide⟩ (by decide)⟩
  | unbindAllBudgets id =>
    obtain ⟨texts, hreduced, hrooted⟩ := rooted_push_jobs set base id
    have hbudgets : isPlain "budgets" = true := by decide
    have hlast : (target set base (Collection.unbindAllBudgets id).segments).segments =
        ((base.popIfEmpty.push set "jobs").push set id).rooted ++ [encodeSegment set "budgets"] :=
      push_segments set hbudgets
    refine ⟨_, hreduced, ?_⟩
    rw [hlast, hrooted, List.map_append, List.append_assoc]
    rfl

/-- A call with plain names shares its path with a collection only if it has the segments that are left of that. -/
theorem path_ne_collection {call : Call} (hmethod : call.method = .delete) (h : Clear call) (op : Collection) :
    (target set base call.segments).path ≠ (target set base op.segments).path := by
  obtain ⟨texts, hreduced, hop⟩ := collection_segments set base op
  have hcall := target_segments set base (call_rooted call) ((plain_iff call).mpr h.1)
  have htexts : texts ≠ [] := by cases hreduced <;> exact List.cons_ne_nil _ _
  have hsegments : call.segments ≠ [] := by
    obtain ⟨_, _, heq, -⟩ := call_rooted call
    rw [heq]
    exact List.cons_ne_nil _ _
  intro heq
  rw [path_inj (by simp [hcall, hsegments]) (by simp [hop, htexts]), hcall, hop, List.append_cancel_left_eq] at heq
  replace heq := (encodeSegment_injective set).list_map heq
  rcases call_eq_of_delete hmethod with ⟨id, rfl⟩ | ⟨name, rfl⟩ | ⟨group, entry, rfl⟩ | ⟨key, rfl⟩ |
    ⟨id, key, rfl⟩ | ⟨key, rfl⟩ <;>
  cases hreduced <;> simp_all [Call.segments, Segment.text, Clear]

end Collections

/-- **Main theorem.** A call reaches the resource that it names, and no collection, exactly when none of its names is
`.` or `..` or holds a tab or a line end, and neither `delete_job` nor `unbind_all_jobs_budget` is given `budgets`. -/
theorem addresses_iff (set : SegmentSet) (base : Url) (call : Call) :
    Addresses set base call ↔ Clear call := by
  constructor
  · rintro ⟨hsegments, hne⟩
    refine ⟨(plain_iff call).mp (plain_of_decode_target set base (call_rooted call) hsegments), ?_⟩
    split
    · rintro rfl
      exact hne .clearAllJobsBudgets rfl
    · rintro rfl
      exact hne (.unbindAllBudgets "budgets") rfl
    · trivial
  · intro h
    refine ⟨?_, fun op heq => ?_⟩
    · rw [target_segments set base (call_rooted call) ((plain_iff call).mpr h.1), List.map_append, List.map_map,
        List.map_map]
      congr 2
      funext s
      exact Percent.decode_encode set.percent (utf8 s.text)
    · obtain ⟨hmethod, hpath⟩ := Prod.mk.inj heq
      exact path_ne_collection set base hmethod h op hpath

/-- The bytes that the crate escapes in the path segments of an http URL. -/
def specialPathSegment : SegmentSet where
  escape b := b < 32 || 126 < b || [32, 34, 35, 37, 47, 60, 62, 63, 92, 96, 123, 125].contains b
  slash := rfl
  percent := rfl
  question := rfl
  hash := rfl

/-- Deleting the job `.` is deleting all jobs. -/
theorem not_addresses_dot : ¬ Addresses specialPathSegment ⟨[], by simp⟩ (.deleteJob ".") := by
  rintro ⟨-, hne⟩
  exact hne .deleteAllJobs rfl

end Zizq.Client
