import Zizq.Take.Roundtrip

/-! What each poll of the take stream touches.

Here the inner stream is everything that it would ever return, its end included, and
a poll of the take stream also reports what it did on the way: each call of the
decoder and each poll of the inner stream. Without the reports it is the take stream
as before (`pollNext_forget`). One poll does one of four things (`Did`); from them,
over any number of polls, a stream that has returned an error or its end touches
nothing any more (`polls_latched`), and a transport error surfaces behind every record
that had arrived (`polls_transport`). -/
namespace Zizq.Take.TakeStream
open Client Data Framing
variable {J : Type}

/-- What a poll of the take stream does on its way. A poll of the inner stream returns an event, or
`none` at its end. -/
inductive Access where
  | decoderNext
  | innerPoll (event : Option InnerPoll)

structure Traced where
  inner : List (Option InnerPoll)
  decoder : StreamDecoder
  finished : Bool

structure Step (J : Type) where
  poll : Poll (Option (Except ZizqError J))
  accesses : List Access

def Access.bytes : Access → Bytes
  | .innerPoll (some (.chunk bytes)) => bytes
  | _ => []

/-- The bytes that arrived during a poll. -/
def received (accesses : List Access) : Bytes := accesses.flatMap Access.bytes

/-- The transport errors that a poll of the inner stream returned on the way. -/
def transportErrors (accesses : List Access) : List String :=
  accesses.filterMap fun
    | .innerPoll (some (.error source)) => some source
    | _ => none

def Step.item (step : Step J) : Option (Except ZizqError J) :=
  match step.poll with
  | .ready item => item
  | .pending => none

/-- The bytes that arrived during some polls. -/
def arrived (steps : List (Step J)) : Bytes := steps.flatMap fun step => received step.accesses

/-- An error, or the end. -/
def Step.isLast (step : Step J) : Bool :=
  match step.poll with
  | .ready none | .ready (some (.error _)) => true
  | _ => false

namespace Traced

def new (inner : List (Option InnerPoll)) (format : Format) : Traced :=
  { inner := inner
    decoder := StreamDecoder.forFormat format
    finished := false }

/-- The loop of `poll_next` with its accesses. An inner stream whose events are used up has ended. -/
def pollLoop (parsers : Parsers J) (decoder : StreamDecoder) (inner : List (Option InnerPoll)) :
    Step J × Traced :=
  match decoder.next parsers with
  | .record job rest =>
    (⟨.ready (some (.ok job)), [.decoderNext]⟩, ⟨inner, decoder.setBuffer rest, false⟩)
  | .error e rest =>
    (⟨.ready (some (.error e)), [.decoderNext]⟩, ⟨inner, decoder.setBuffer rest, true⟩)
  | .needMore rest =>
    match inner with
    | some (.chunk bytes) :: inner =>
      let (step, this) := pollLoop parsers ((decoder.setBuffer rest).feed bytes) inner
      (⟨step.poll, .decoderNext :: .innerPoll (some (.chunk bytes)) :: step.accesses⟩, this)
    | some (.error source) :: inner =>
      (⟨.ready (some (.error (.transport source))), [.decoderNext, .innerPoll (some (.error source))]⟩,
        ⟨inner, decoder.setBuffer rest, true⟩)
    | some .pending :: inner =>
      (⟨.pending, [.decoderNext, .innerPoll (some .pending)]⟩, ⟨inner, decoder.setBuffer rest, false⟩)
    | none :: inner =>
      (⟨.ready ((decoder.setBuffer rest).finalize.map .error), [.decoderNext, .innerPoll none]⟩,
        ⟨inner, decoder.setBuffer [], true⟩)
    | [] =>
      (⟨.ready ((decoder.setBuffer rest).finalize.map .error), [.decoderNext, .innerPoll none]⟩,
        ⟨[], decoder.setBuffer [], true⟩)

def pollNext (parsers : Parsers J) (this : Traced) : Step J × Traced :=
  if this.finished then (⟨.ready none, []⟩, this) else pollLoop parsers this.decoder this.inner

/-- What the first `n` polls return and touch. -/
def polls (parsers : Parsers J) : Nat → Traced → List (Step J)
  | 0, _ => []
  | n + 1, this => (pollNext parsers this).1 :: polls parsers n (pollNext parsers this).2

/-! ### The same stream -/

/-- The events in front of the first end. -/
def beforeEnd : List (Option InnerPoll) → List InnerPoll
  | some event :: inner => event :: beforeEnd inner
  | none :: _ | [] => []

/-- The same stream for a caller: once it is finished, what is left of the inner stream is of no
account. -/
structure Shows (this : Traced) (stream : TakeStream) : Prop where
  decoder : this.decoder = stream.decoder
  finished : this.finished = stream.finished
  inner : this.finished = false → stream.inner = beforeEnd this.inner

/-- Behind the last result only the decoders count. -/
theorem shows_finished {this : Traced} {stream : TakeStream} (hdecoder : this.decoder = stream.decoder)
    (hthis : this.finished = true) (hstream : stream.finished = true) : Shows this stream :=
  ⟨hdecoder, hthis.trans hstream.symm, fun hopen => absurd (hthis.symm.trans hopen) Bool.true_eq_false.mp⟩

theorem pollLoop_forget (parsers : Parsers J) (decoder : StreamDecoder)
    (inner : List (Option InnerPoll)) :
    (pollLoop parsers decoder inner).1.poll =
        (TakeStream.pollLoop parsers decoder (beforeEnd inner)).1 ∧
      Shows (pollLoop parsers decoder inner).2
        (TakeStream.pollLoop parsers decoder (beforeEnd inner)).2 := by
  fun_induction pollLoop parsers decoder inner with
  | case1 inner decoder job rest h =>
    rw [TakeStream.pollLoop, h]
    exact ⟨rfl, rfl, rfl, fun _ => rfl⟩
  | case2 inner decoder e rest h =>
    rw [TakeStream.pollLoop, h]
    exact ⟨rfl, shows_finished rfl rfl rfl⟩
  | case3 decoder rest h bytes inner step this heq ih =>
    rw [beforeEnd, TakeStream.pollLoop, h]
    rwa [heq] at ih
  | case4 decoder rest h source inner =>
    rw [beforeEnd, TakeStream.pollLoop, h]
    exact ⟨rfl, shows_finished rfl rfl rfl⟩
  | case5 decoder rest h inner =>
    rw [beforeEnd, TakeStream.pollLoop, h]
    exact ⟨rfl, rfl, rfl, fun _ => rfl⟩
  | case6 decoder rest h inner =>
    rw [beforeEnd, TakeStream.pollLoop, h]
    exact ⟨rfl, shows_finished rfl rfl rfl⟩
  | case7 decoder rest h =>
    rw [beforeEnd, TakeStream.pollLoop, h]
    exact ⟨rfl, shows_finished rfl rfl rfl⟩

/-- Without its accesses, a poll is the poll of the take stream. -/
theorem pollNext_forget (parsers : Parsers J) {this : Traced} {stream : TakeStream}
    (h : Shows this stream) :
    (pollNext parsers this).1.poll = (TakeStream.pollNext parsers stream).1 ∧
      Shows (pollNext parsers this).2 (TakeStream.pollNext parsers stream).2 := by
  obtain ⟨inner, decoder, _ | _⟩ := this
  · obtain ⟨inner', decoder', finished'⟩ := stream
    obtain ⟨rfl, rfl, hinner⟩ := h
    rw [show inner' = beforeEnd inner from hinner rfl]
    exact pollLoop_forget parsers decoder inner
  · obtain ⟨inner', decoder', finished'⟩ := stream
    obtain ⟨rfl, rfl, -⟩ := h
    exact ⟨rfl, shows_finished rfl rfl rfl⟩

theorem shows_new (inner : List (Option InnerPoll)) (format : Format) :
    Shows (new inner format) (TakeStream.new (beforeEnd inner) format) := ⟨rfl, rfl, fun _ => rfl⟩

/-! ### What a poll can do -/

/-- What a poll does to a stream that is not finished and has `b` buffered: it takes a record off, waits,
passes a transport error on, or ends in another way. What arrived on the way is behind the buffer. -/
inductive Did (d : Decoder UInt8 J ZizqError) (b : Bytes) : Step J → Traced → Prop where
  | record {job : J} {accesses : List Access} {this : Traced} (hopen : this.finished = false)
      (hsafe : transportErrors accesses = [])
      (hall : ∀ more, decodeAll d (b ++ received accesses ++ more) =
        (job :: (decodeAll d (this.decoder.buffer ++ more)).1, (decodeAll d (this.decoder.buffer ++ more)).2)) :
      Did d b ⟨.ready (some (.ok job)), accesses⟩ this
  | wait {accesses : List Access} {this : Traced} (hopen : this.finished = false)
      (hsafe : transportErrors accesses = [])
      (hall : ∀ more, decodeAll d (b ++ received accesses ++ more) =
        decodeAll d (this.decoder.buffer ++ more)) :
      Did d b ⟨.pending, accesses⟩ this
  | broken {source : String} {accesses : List Access} {this : Traced} {rest : Bytes}
      (hfinished : this.finished = true) (herror : transportErrors accesses = [source])
      (hall : decodeAll d (b ++ received accesses) = ([], .waiting rest)) :
      Did d b ⟨.ready (some (.error (.transport source))), accesses⟩ this
  | stopped {step : Step J} {this : Traced} (hfinished : this.finished = true)
      (hlast : step.isLast = true) (hsafe : transportErrors step.accesses = []) : Did d b step this

/-- A poll that goes on with a chunk behind what the waiting decoder has left. -/
theorem Did.afterChunk {d : Decoder UInt8 J ZizqError} {b rest bytes : Bytes} {step : Step J} {this : Traced}
    (hwait : d.decode b = .needMore rest) (h : Did d (rest ++ bytes) step this) :
    Did d b ⟨step.poll, .decoderNext :: .innerPoll (some (.chunk bytes)) :: step.accesses⟩ this := by
  have hbytes : ∀ accesses more,
      decodeAll d (b ++ received (.decoderNext :: .innerPoll (some (.chunk bytes)) :: accesses) ++ more) =
        decodeAll d (rest ++ bytes ++ received accesses ++ more) := by
    intro accesses more
    have := decodeAll_needMore_append d hwait (bytes ++ received accesses ++ more)
    simpa [received, Access.bytes] using this
  cases h with
  | record hopen hsafe hall => exact .record hopen hsafe fun more => (hbytes _ more).trans (hall more)
  | wait hopen hsafe hall => exact .wait hopen hsafe fun more => (hbytes _ more).trans (hall more)
  | broken hfinished herror hall =>
    refine .broken hfinished herror (Eq.trans ?_ hall)
    simpa using hbytes _ []
  | stopped hfinished hlast hsafe => exact .stopped hfinished hlast hsafe

theorem isLast_finalize (decoder : StreamDecoder) (accesses : List Access) :
    (⟨.ready (decoder.finalize.map .error), accesses⟩ : Step J).isLast = true := by
  cases h : decoder.finalize <;> rfl

theorem pollLoop_did (parsers : Parsers J) (decoder : StreamDecoder) (inner : List (Option InnerPoll)) :
    Did (parsers.decoder decoder.format) decoder.buffer (pollLoop parsers decoder inner).1
      (pollLoop parsers decoder inner).2 := by
  fun_induction pollLoop parsers decoder inner with
  | case1 inner decoder job rest h =>
    refine .record rfl rfl fun more => ?_
    have hdecode := (parsers.decoder decoder.format).decode_append decoder.buffer more
    rw [← decoder.next_eq, h] at hdecode
    simpa [received, Access.bytes] using decodeAll_record _ hdecode
  | case2 inner decoder e rest h => exact .stopped rfl rfl rfl
  | case3 decoder rest h bytes inner step this heq ih =>
    rw [heq, StreamDecoder.format_feed, StreamDecoder.format_setBuffer, StreamDecoder.buffer_feed,
      StreamDecoder.buffer_setBuffer] at ih
    exact ih.afterChunk (by rw [← decoder.next_eq, h])
  | case4 decoder rest h source inner =>
    rw [decoder.next_eq] at h
    exact .broken rfl rfl (by simpa [received, Access.bytes] using decodeAll_needMore _ h)
  | case5 decoder rest h inner =>
    rw [decoder.next_eq] at h
    exact .wait rfl rfl fun more => by
      simpa [received, Access.bytes] using decodeAll_needMore_append _ h more
  | case6 decoder rest h inner => exact .stopped rfl (isLast_finalize _ _) rfl
  | case7 decoder rest h => exact .stopped rfl (isLast_finalize _ _) rfl

theorem format_pollLoop (parsers : Parsers J) (decoder : StreamDecoder) (inner : List (Option InnerPoll)) :
    (pollLoop parsers decoder inner).2.decoder.format = decoder.format := by
  fun_induction pollLoop parsers decoder inner with
  | case3 decoder rest h bytes inner step this heq ih =>
    rw [heq] at ih
    simpa using ih
  | case1 | case2 | case4 | case5 | case6 | case7 => exact StreamDecoder.format_setBuffer ..

theorem pollNext_did (parsers : Parsers J) {this : Traced} (hopen : this.finished = false) :
    Did (parsers.decoder this.decoder.format) this.decoder.buffer (pollNext parsers this).1
      (pollNext parsers this).2 := by
  rw [pollNext, hopen]
  exact pollLoop_did parsers this.decoder this.inner

theorem format_pollNext (parsers : Parsers J) (this : Traced) :
    (pollNext parsers this).2.decoder.format = this.decoder.format := by
  unfold pollNext
  split
  · rfl
  · exact format_pollLoop parsers this.decoder this.inner

theorem Did.finished {d : Decoder UInt8 J ZizqError} {b : Bytes} {step : Step J} {this : Traced}
    (h : Did d b step this) (hlast : step.isLast = true) : this.finished = true := by
  cases h with
  | record | wait => cases hlast
  | broken hfinished => exact hfinished
  | stopped hfinished => exact hfinished

/-- An error or the end leaves the stream finished. -/
theorem pollNext_finished (parsers : Parsers J) {this : Traced}
    (hlast : (pollNext parsers this).1.isLast = true) : (pollNext parsers this).2.finished = true := by
  cases hopen : this.finished with
  | false => exact (pollNext_did parsers hopen).finished hlast
  | true => simp only [pollNext, hopen, if_pos]

/-! ### Any number of polls -/

theorem polls_finished (parsers : Parsers J) {this : Traced} (h : this.finished = true) (n : Nat) :
    polls parsers n this = List.replicate n ⟨.ready none, []⟩ := by
  induction n with
  | zero => rfl
  | succ n ih =>
    have hnext : pollNext parsers this = (⟨.ready none, []⟩, this) := if_pos h
    rw [polls, hnext, ih, List.replicate_succ]

/-- Behind an error or an end, a poll returns `None` and touches nothing. -/
theorem polls_latched (parsers : Parsers J) (n : Nat) (this : Traced) :
    (polls parsers n this).Pairwise fun step later => step.isLast = true → later = ⟨.ready none, []⟩ := by
  induction n generalizing this with
  | zero => exact .nil
  | succ n ih =>
    rw [polls, List.pairwise_cons]
    refine ⟨fun later hlater hlast => ?_, ih _⟩
    rw [polls_finished parsers (pollNext_finished parsers hlast)] at hlater
    exact List.eq_of_mem_replicate hlater

/-- Of steps with this property at most one yields an error. -/
theorem countP_error_le {steps : List (Step J)}
    (h : steps.Pairwise fun step later => step.isLast = true → later = ⟨.ready none, []⟩) :
    (steps.filterMap Step.item).countP (!·.isOk) ≤ 1 := by
  induction steps with
  | nil => exact Nat.zero_le _
  | cons step steps ih =>
    obtain ⟨hstep, hsteps⟩ := List.pairwise_cons.mp h
    obtain ⟨_ | _ | _ | job, accesses⟩ := step
    · exact ih hsteps
    · exact ih hsteps
    · have hnone : steps.filterMap Step.item = [] := by
        rw [List.filterMap_eq_nil_iff]
        intro later hlater
        rw [hstep later hlater rfl]
        rfl
      simp only [List.filterMap_cons, Step.item, hnone]
      exact le_rfl
    · exact ih hsteps

/-- A poll that meets a transport error returns it, and nothing was left to decode. -/
theorem Did.transport {d : Decoder UInt8 J ZizqError} {b : Bytes} {step : Step J} {this : Traced}
    (h : Did d b step this) {source : String} (hsource : source ∈ transportErrors step.accesses) :
    step.poll = .ready (some (.error (.transport source))) ∧
      ∃ rest, decodeAll d (b ++ received step.accesses) = ([], .waiting rest) := by
  cases h with
  | record _ hsafe | wait _ hsafe | stopped _ _ hsafe =>
    rw [hsafe] at hsource
    cases hsource
  | broken hfinished herror hall =>
    rw [herror, List.mem_singleton] at hsource
    subst hsource
    exact ⟨rfl, _, hall⟩

/-- A poll that leaves the stream open yields what decoding finds in front of what it finds afterwards. -/
theorem Did.decoded {d : Decoder UInt8 J ZizqError} {b more rest : Bytes} {step : Step J} {this : Traced}
    (h : Did d b step this) (hopen : this.finished = false) {jobs : List J}
    (hdecode : decodeAll d (this.decoder.buffer ++ more) = (jobs, .waiting rest)) :
    ∃ jobs', decodeAll d (b ++ received step.accesses ++ more) = (jobs', .waiting rest) ∧
      jobs'.map .ok = step.item.toList ++ jobs.map .ok := by
  cases h with
  | record _ _ hall => exact ⟨_ :: jobs, (hall more).trans (by rw [hdecode]), rfl⟩
  | wait _ _ hall => exact ⟨jobs, (hall more).trans hdecode, rfl⟩
  | broken hfinished | stopped hfinished => exact absurd (hfinished.symm.trans hopen) Bool.true_eq_false.mp

/-- A stream that still meets a transport error is not finished. -/
theorem open_of_transport (parsers : Parsers J) {this : Traced} {n : Nat} {step : Step J} {source : String}
    (hstep : step ∈ polls parsers n this) (hsource : source ∈ transportErrors step.accesses) :
    this.finished = false := by
  by_contra hfinished
  rw [Bool.not_eq_false] at hfinished
  rw [polls_finished parsers hfinished] at hstep
  rw [List.eq_of_mem_replicate hstep] at hsource
  cases hsource

/-- Up to a transport error, decoding what has arrived finds what has been yielded. -/
theorem polls_transport (parsers : Parsers J) {this : Traced} (hopen : this.finished = false) {n : Nat}
    {before after : List (Step J)} {step : Step J} {source : String}
    (hpolls : polls parsers n this = before ++ step :: after)
    (hsource : source ∈ transportErrors step.accesses) :
    step.poll = .ready (some (.error (.transport source))) ∧
      ∃ jobs rest, decodeAll (parsers.decoder this.decoder.format)
          (this.decoder.buffer ++ arrived (before ++ [step])) = (jobs, .waiting rest) ∧
        before.filterMap Step.item = jobs.map .ok := by
  induction n generalizing this before with
  | zero => simp [polls] at hpolls
  | succ n ih =>
    have hdid := pollNext_did parsers hopen
    have hformat := format_pollNext parsers this
    rw [polls] at hpolls
    generalize pollNext parsers this = next at hdid hpolls hformat
    obtain ⟨first, this'⟩ := next
    cases before with
    | nil =>
      obtain ⟨rfl, -⟩ := List.cons.inj hpolls
      obtain ⟨hpoll, rest, hdecode⟩ := hdid.transport hsource
      exact ⟨hpoll, [], rest, by simpa [arrived] using hdecode, rfl⟩
    | cons first' before =>
      obtain ⟨rfl, hrest⟩ := List.cons.inj hpolls
      have hopen' : this'.finished = false :=
        open_of_transport parsers (by rw [hrest]; exact List.mem_append_right _ List.mem_cons_self) hsource
      obtain ⟨hpoll, jobs, rest, hdecode, hitems⟩ := ih hopen' hrest
      rw [show this'.decoder.format = this.decoder.format from hformat] at hdecode
      obtain ⟨jobs', hdecode', hjobs⟩ := hdid.decoded hopen' hdecode
      refine ⟨hpoll, jobs', rest, by simpa [arrived] using hdecode', ?_⟩
      rw [hjobs, ← hitems, List.filterMap_cons]
      cases first.item <;> rfl

/-- What the first polls yield is what the take stream yields first. -/
theorem polls_items (parsers : Parsers J) (n : Nat) {this : Traced} {stream : TakeStream}
    (h : Shows this stream) : (polls parsers n this).filterMap Step.item <+: stream.items parsers := by
  rw [items_eq]
  induction n generalizing this stream with
  | zero => exact List.nil_prefix
  | succ n ih =>
    obtain ⟨hpoll, hshows⟩ := pollNext_forget parsers h
    have hcontents := pollNext_contents parsers stream
    have hrest := ih hshows
    have hfinished : (pollNext parsers this).1.isLast = true → (pollNext parsers this).2.finished = true :=
      pollNext_finished parsers
    rw [polls]
    generalize pollNext parsers this = next at hpoll hrest hfinished
    generalize TakeStream.pollNext parsers stream = next' at hpoll hrest hcontents
    obtain ⟨⟨poll, accesses⟩, this'⟩ := next
    obtain ⟨_, stream'⟩ := next'
    obtain rfl : poll = _ := hpoll
    obtain _ | _ | item := poll
    · exact hcontents ▸ hrest
    · rw [polls_finished parsers (hfinished rfl), hcontents]
      simp [Step.item]
    · exact hcontents ▸ List.cons_prefix_cons.mpr ⟨rfl, hrest⟩

end Traced

/-! ### Whole frames

A frame of either format, whatever it holds: a line, or a payload behind its length. -/

abbrev Line := {line : Bytes // newline ∉ line}

/-- The text of a record; a blank line has none. -/
def Line.payload (line : Line) : Option Bytes :=
  if (stripCr line.1).all isAsciiWhitespace then none else some (stripCr line.1)

section Lines
variable (parse : Bytes → Except String J)

def Line.result (line : Line) : Option (Except ZizqError J) :=
  line.payload.map fun text => recordResult (parse text)

theorem decode_empty : (ndjsonDecoder parse).decode [] = .needMore [] :=
  decodeNdjson_wait parse List.not_mem_nil

theorem decode_line (line : Line) (rest : Bytes) : (ndjsonDecoder parse).decode (line.1 ++ [newline] ++ rest) =
    .ofItem (ndjsonDecoder parse).decode rest (line.result parse) := by
  rw [List.append_assoc, List.singleton_append]
  apply Eq.trans (decodeNdjson_line_newline parse line.2 rest)
  unfold Line.result Line.payload
  split
  · rfl
  · exact ofParse_eq _ _ _

theorem decode_cutLine {line : Line} {t : Bytes} (hcut : t <+: line.1 ++ [newline])
    (hne : t ≠ line.1 ++ [newline]) (hnil : t ≠ []) :
    ∃ rest, (ndjsonDecoder parse).decode t = .needMore rest ∧ rest ≠ [] :=
  ⟨t, decodeNdjson_wait parse (newline_not_mem_cut line.2 hcut hne), hnil⟩

def lineEncoder : Encoder (ndjsonDecoder parse) Line where
  encode line := line.1 ++ [newline]
  result line := line.result parse
  decode_nil := decode_empty parse
  decode_whole := decode_line parse
  decode_cut := decode_cutLine parse

end Lines

abbrev Frame : Format → Type
  | .json => Line
  | .messagePack => MsgpackItem

def framing (parsers : Parsers J) : (format : Format) → Encoder (parsers.decoder format) (Frame format)
  | .json => lineEncoder parsers.json
  | .messagePack => msgpackEncoder parsers.msgpack

/-- **Main theorem.** Over any number of polls, whatever the inner stream returns: behind the first error
or end every poll returns `None`, asks no decoder and polls no inner stream, so at most one error is
yielded; and a poll that meets a transport error returns it, when the records of all frames that have
arrived have been yielded. -/
theorem polls_settled (parsers : Parsers J) (format : Format) (inner : List (Option InnerPoll)) (n : Nat) :
    let steps := (Traced.new inner format).polls parsers n
    steps.Pairwise (fun step later => step.isLast = true → later = ⟨.ready none, []⟩) ∧
    (steps.filterMap Step.item).countP (!·.isOk) ≤ 1 ∧
    ∀ before step after source, steps = before ++ step :: after →
      .innerPoll (some (.error source)) ∈ step.accesses →
      step.poll = .ready (some (.error (.transport source))) ∧
      ∀ frames : List (Frame format),
        (framing parsers format).encodeAll frames <+: arrived (before ++ [step]) →
        frames.filterMap (framing parsers format).result <+: before.filterMap Step.item := by
  intro steps
  have hlatched := Traced.polls_latched parsers n (.new inner format)
  refine ⟨hlatched, Traced.countP_error_le hlatched, ?_⟩
  intro before step after source hsteps hsource
  have herror : source ∈ transportErrors step.accesses := List.mem_filterMap.mpr ⟨_, hsource, rfl⟩
  obtain ⟨hpoll, jobs, rest, hdecode, hitems⟩ := Traced.polls_transport parsers rfl hsteps herror
  refine ⟨hpoll, ?_⟩
  rintro frames ⟨more, hmore⟩
  have hformat : (StreamDecoder.forFormat format).format = format := by cases format <;> rfl
  have hbuffer : (StreamDecoder.forFormat format).buffer = [] := by cases format <;> rfl
  rw [Traced.new, hformat, hbuffer, List.nil_append, ← hmore] at hdecode
  rw [hitems]
  exact (framing parsers format).results_leading frames hdecode

/-- A record, then a reset connection. -/
theorem polls_settled_reset :
    let parsers : Parsers Unit := ⟨fun _ => .ok (), fun _ => .ok ()⟩
    let inner := [some (.chunk [0, 0, 0, 1, 7]), some (.error "reset"), none]
    let steps := (Traced.new inner .messagePack).polls parsers 3
    [.ok ()] <+: (steps.take 1).filterMap Step.item ∧
      ∀ later ∈ steps.drop 2, later = ⟨.ready none, []⟩ := by
  intro parsers inner steps
  obtain ⟨hlatched, -, herror⟩ := polls_settled parsers .messagePack inner 3
  constructor
  · have hrecord := (herror (steps.take 1) _ (steps.drop 2) "reset" rfl (.tail _ (.head _))).2
    exact hrecord [.record [7] (by decide) (by decide)] (List.prefix_refl _)
  · exact fun later hlater =>
      (List.pairwise_cons.mp (List.pairwise_cons.mp hlatched).2).1 later hlater rfl

end Zizq.Take.TakeStream
