import Zizq.Take.Stream
import Zizq.Worker.Reconnect
import Zizq.Worker.Record

/-! A worker on its take streams.

Here the jobs of the worker come off take streams, one stream a session, each with the
body that the server sent. Whatever the interleaving with the other parties, a run of
the two is a run of the worker, the jobs it dispatches are the ones that decoding the
bodies finds, in that order, and a session ends only where its body does
(`session_follows`). -/
namespace Zizq.Worker
open Client Data Take

variable {J : Type} {worker : Worker} {parsers : Parsers J} {asJob : J → Job}

/-! ### The two together -/

/-- A take stream that was opened: its body, the jobs it has given, and what has ended it, if it came to its end. -/
structure Opened (J : Type) where
  inner : List InnerPoll
  format : Format
  jobs : List J
  ending : Option (Option ZizqError)

def Opened.stream (o : Opened J) : TakeStream := .new o.inner o.format

/-- The worker, the stream that is open, and the ones that were. -/
structure Session (J : Type) where
  state : State
  current : Option (Opened J × TakeStream)
  past : List (Opened J)

inductive SessionEvent where
  | connected (inner : List InnerPoll) (format : Format)
  | polled
  | other (e : Event)

/-- What comes of the take stream, so that no other party decides it. -/
def Event.ofStream : Event → Bool
  | .main .connected | .main (.pulled _) | .main .streamEnded | .main (.streamFailed _) => true
  | _ => false

/-- The stream that is open, if one is, goes to the past. -/
def Session.close (p : Session J) (ending : Option (Option ZizqError)) : List (Opened J) :=
  p.past ++ (p.current.map fun c => { c.1 with ending := ending }).toList

def Session.opened (p : Session J) : List (Opened J) := p.past ++ (p.current.map Prod.fst).toList

/-- All that the streams have given. -/
def Session.jobs (p : Session J) : List J := p.opened.flatMap (·.jobs)

@[simp] theorem Session.jobs_open (s : State) (o : Opened J) (stream : TakeStream) (past : List (Opened J)) :
    (⟨s, some (o, stream), past⟩ : Session J).jobs = past.flatMap (·.jobs) ++ o.jobs := by
  simp [Session.jobs, Session.opened]

@[simp] theorem Session.jobs_shut (s : State) (past : List (Opened J)) :
    (⟨s, none, past⟩ : Session J).jobs = past.flatMap (·.jobs) := by
  simp [Session.jobs, Session.opened]

@[simp] theorem Session.flatMap_close (p : Session J) (ending : Option (Option ZizqError)) :
    (p.close ending).flatMap (·.jobs) = p.jobs := by
  obtain ⟨s, _ | ⟨o, stream⟩, past⟩ := p <;> simp [Session.close]

section Step
-- the machine has of a job what `asJob` leaves of it
variable (worker : Worker) (parsers : Parsers J) (asJob : J → Job)

/-- One poll of `stream.try_next()`, with what the worker makes of its result. -/
def poll (p : Session J) (o : Opened J) (stream : TakeStream) : Option (Option Event × Session J) :=
  match stream.pollNext parsers with
  | (.pending, stream) => some (none, { p with current := some (o, stream) })
  | (.ready (some (.ok job)), stream) =>
    let e := .main (.pulled (asJob job))
    (step worker p.state e).map fun s => (some e, ⟨s, some ({ o with jobs := o.jobs ++ [job] }, stream), p.past⟩)
  | (.ready (some (.error err)), _) =>
    let e := .main (.streamFailed err)
    (step worker p.state e).map fun s => (some e, ⟨s, none, p.close (some (some err))⟩)
  | (.ready none, _) =>
    let e := .main .streamEnded
    (step worker p.state e).map fun s => (some e, ⟨s, none, p.close (some none)⟩)

/-- One event of the two, with the event of the worker that it is. -/
def stepSession (p : Session J) : SessionEvent → Option (Option Event × Session J)
  | .connected inner format =>
    let e := .main .connected
    (step worker p.state e).map fun s =>
      (some e, ⟨s, some (⟨inner, format, [], none⟩, .new inner format), p.close none⟩)
  | .polled =>
    match p.state.main, p.current with
    | .dispatching, some (o, stream) =>
      if inflight p.state < worker.concurrency then poll worker parsers asJob p o stream else none
    | _, _ => none
  | .other e =>
    if e.ofStream then none
    else (step worker p.state e).map fun s =>
      (some e, if s.stream then { p with state := s } else ⟨s, none, p.close none⟩)

/-- The events of the worker so far, and where the two are. -/
def stepTraced (t : List Event × Session J) (e : SessionEvent) : Option (List Event × Session J) :=
  (stepSession worker parsers asJob t.2 e).map fun r => (t.1 ++ r.1.toList, r.2)

end Step

/-- The body as far as it was decoded: up to where it ended, or up to where the stream was dropped. -/
def Opened.Decoded (parsers : Parsers J) (o : Opened J) : Prop :=
  match o.ending with
  | some err => o.stream.contents parsers = o.jobs.map .ok ++ err.toList.map .error
  | none => o.jobs.map .ok <+: o.stream.contents parsers

/-- What a run of the two has come to. -/
structure Follows (worker : Worker) (parsers : Parsers J) (asJob : J → Job) (trace : List Event)
    (p : Session J) : Prop where
  execution : Execution worker trace p.state
  jobs : pulls trace = p.jobs.map asJob
  current : ∀ o stream, p.current = some (o, stream) →
    o.ending = none ∧ o.stream.contents parsers = o.jobs.map .ok ++ stream.contents parsers
  past : ∀ o ∈ p.past, o.Decoded parsers
  /-- Only a worker that has left its loop drops a stream before the end. -/
  dropped : ∀ o ∈ p.past, o.ending = none → p.state.main.looping = false
  flag : p.current.isSome → p.state.stream = true

/-! ### The worker and its stream -/

/-- Between two sessions no stream is open. -/
def Unconnected (s : State) : Prop := s.main = .connecting ∨ s.main = .sleeping → s.stream = false

theorem unconnected_step {s s' : State} {e : Event} (hs : Unconnected s) (h : step worker s e = some s') :
    Unconnected s' := by
  cases e with
  | main e =>
    intro hidle
    cases stepMain_cases h with
    | connectFailed hmain | slept hmain => exact hs (by simp [hmain])
    | streamEnded | streamFailed | dropped => rfl
    | joined => exact hs hidle
    | _ => simp at hidle
  | task i e =>
    obtain ⟨_, _, _, _, _, rfl⟩ := stepTask_eq_some.mp h
    exact hs
  | ack e =>
    obtain ⟨hmain, hstream, -⟩ := stepAck_frame h
    rwa [Unconnected, hmain, hstream]

theorem Execution.unconnected {es : List Event} {s : State} (h : Execution worker es s) : Unconnected s :=
  Transition.run_invariant (fun _ _ _ hs h => unconnected_step hs h) h.run fun _ => rfl

/-- A worker drops its stream, but for what the stream itself says, only outside the loop. -/
theorem step_stream {s s' : State} {e : Event} (h : step worker s e = some s') (he : e.ofStream = false)
    (hstream : s.stream = true) (hdropped : s'.stream = false) : s'.main.looping = false := by
  cases e with
  | main e =>
    cases stepMain_cases h with
    | dropped => rfl
    | connected | streamEnded | streamFailed => cases he
    | _ => exact absurd (hstream.symm.trans hdropped) (by simp)
  | task i e =>
    obtain ⟨_, _, _, _, _, rfl⟩ := stepTask_eq_some.mp h
    exact absurd (hstream.symm.trans hdropped) (by simp)
  | ack e =>
    obtain ⟨-, heq, -⟩ := stepAck_frame h
    exact absurd (hstream.symm.trans (heq.symm.trans hdropped)) (by simp)

/-- Behind an error a stream has nothing. -/
theorem contents_of_error {stream stream' : TakeStream} {err : ZizqError}
    (h : stream.pollNext parsers = (.ready (some (.error err)), stream')) : stream'.contents parsers = [] := by
  have hloop (decoder : StreamDecoder) (inner : List InnerPoll) {stream' : TakeStream}
      (h : TakeStream.pollLoop parsers decoder inner = (.ready (some (.error err)), stream')) :
      stream'.finished = true := by
    fun_induction TakeStream.pollLoop parsers decoder inner with
    | case1 => cases h
    | case2 => cases h; rfl
    | case3 decoder rest hnext bytes inner ih => exact ih h
    | case4 => cases h; rfl
    | case5 =>
      obtain ⟨-, rfl⟩ := Prod.mk.inj h
      rfl
    | case6 => cases h
  have hfinished : stream'.finished = true := by
    unfold TakeStream.pollNext at h
    split at h
    · cases h
    · exact hloop _ _ h
  rw [TakeStream.contents, if_pos hfinished]

/-- What a stream gives comes after all that was given before. -/
theorem jobs_stepSession {p : Session J} {e : SessionEvent} {r : Option Event × Session J}
    (h : stepSession worker parsers asJob p e = some r) : p.jobs <+: r.2.jobs := by
  have hclose (s : State) (ending : Option (Option ZizqError)) :
      p.jobs <+: (⟨s, none, p.close ending⟩ : Session J).jobs := by
    have hjobs : (⟨s, none, p.close ending⟩ : Session J).jobs = p.jobs := by
      rw [Session.jobs_shut, Session.flatMap_close]
    exact hjobs ▸ List.prefix_refl _
  cases e with
  | connected inner format =>
    obtain ⟨s, -, rfl⟩ := Option.map_eq_some_iff.mp h
    simp
  | polled =>
    simp only [stepSession] at h
    split at h
    · next o stream _ hcurrent =>
      obtain ⟨s₀, current, past⟩ := p
      obtain rfl : current = _ := hcurrent
      split at h
      · unfold poll at h
        split at h
        · obtain rfl := Option.some.inj h
          simp
        · obtain ⟨s, -, rfl⟩ := Option.map_eq_some_iff.mp h
          simp
        · obtain ⟨s, -, rfl⟩ := Option.map_eq_some_iff.mp h
          exact hclose s _
        · obtain ⟨s, -, rfl⟩ := Option.map_eq_some_iff.mp h
          exact hclose s _
      · cases h
    · cases h
  | other e =>
    simp only [stepSession] at h
    split at h
    · cases h
    · obtain ⟨s, -, rfl⟩ := Option.map_eq_some_iff.mp h
      show p.jobs <+: (if s.stream then { p with state := s } else ⟨s, none, p.close none⟩ : Session J).jobs
      split
      · exact List.prefix_refl _
      · exact hclose s none

/-- The event of the worker comes of the stream, or it is the one that is given. -/
theorem event_stepSession {p : Session J} {e : SessionEvent} {r : Option Event × Session J}
    (h : stepSession worker parsers asJob p e = some r) {x : Event} (hx : r.1 = some x) :
    e = .other x ∨ x.ofStream = true := by
  cases e with
  | connected inner format =>
    obtain ⟨s, -, rfl⟩ := Option.map_eq_some_iff.mp h
    cases hx
    exact .inr rfl
  | polled =>
    simp only [stepSession] at h
    split at h
    · split at h
      · unfold poll at h
        split at h
        · obtain rfl := Option.some.inj h
          cases hx
        all_goals
          obtain ⟨s, -, rfl⟩ := Option.map_eq_some_iff.mp h
          cases hx
          exact .inr rfl
      · cases h
    · cases h
  | other e =>
    simp only [stepSession] at h
    split at h
    · cases h
    · obtain ⟨s, -, rfl⟩ := Option.map_eq_some_iff.mp h
      cases hx
      exact .inl rfl

/-! ### One event of the two -/

section Follow
variable {trace : List Event} {p : Session J} {s : State} {e : Event}

theorem Follows.append (hs : Follows worker parsers asJob trace p) (h : step worker p.state e = some s) :
    Execution worker (trace ++ [e]) s := hs.execution.append h rfl

theorem Follows.looping (hs : Follows worker parsers asJob trace p) (hmain : p.state.main = .dispatching)
    {o : Opened J} (ho : o ∈ p.past) : o.ending ≠ none := by
  intro hnone
  have hleft := hs.dropped o ho hnone
  rw [hmain] at hleft
  cases hleft

/-- The stream gives another job, and leaves the rest of its body. -/
theorem Follows.pulled (hs : Follows worker parsers asJob trace p) (hmain : p.state.main = .dispatching)
    {o : Opened J} {stream stream' : TakeStream} {job : J} (hcurrent : p.current = some (o, stream))
    (hcontents : stream.contents parsers = .ok job :: stream'.contents parsers)
    (h : step worker p.state (.main (.pulled (asJob job))) = some s) :
    Follows worker parsers asJob (trace ++ [.main (.pulled (asJob job))])
      ⟨s, some ({ o with jobs := o.jobs ++ [job] }, stream'), p.past⟩ where
  execution := hs.append h
  jobs := by
    obtain ⟨s₀, current, past⟩ := p
    obtain rfl : current = _ := hcurrent
    rw [pulls_append, hs.jobs]
    simp [pulls]
  current := by
    intro o' stream'' heq
    obtain ⟨rfl, rfl⟩ := Prod.mk.inj (Option.some.inj heq)
    obtain ⟨hending, hbody⟩ := hs.current o stream hcurrent
    refine ⟨hending, ?_⟩
    show o.stream.contents parsers = _
    rw [hbody, hcontents, List.map_append, List.append_assoc]
    rfl
  past := hs.past
  dropped o ho hnone := absurd hnone (hs.looping hmain ho)
  flag _ := by
    have hflag := hs.flag (by rw [hcurrent]; rfl)
    cases stepMain_cases h with
    | pulled => exact hflag

/-- The stream has come to its end, and with it the body. -/
theorem Follows.ended (hs : Follows worker parsers asJob trace p) (hmain : p.state.main = .dispatching) {o : Opened J}
    {stream : TakeStream} {err : Option ZizqError} (hcurrent : p.current = some (o, stream))
    (hcontents : stream.contents parsers = err.toList.map .error) (hpulls : pulls [e] = [])
    (h : step worker p.state e = some s) :
    Follows worker parsers asJob (trace ++ [e]) ⟨s, none, p.close (some err)⟩ where
  execution := hs.append h
  jobs := by
    rw [pulls_append, hpulls, List.append_nil, hs.jobs, Session.jobs_shut, Session.flatMap_close]
  current := nofun
  past := by
    intro o' ho
    rw [Session.close, hcurrent] at ho
    rcases List.mem_append.mp ho with ho | ho
    · exact hs.past o' ho
    · obtain rfl := List.mem_singleton.mp ho
      have hbody := (hs.current o stream hcurrent).2
      rw [hcontents] at hbody
      exact hbody
  dropped := by
    intro o' ho hnone
    rw [Session.close, hcurrent] at ho
    rcases List.mem_append.mp ho with ho | ho
    · exact absurd hnone (hs.looping hmain ho)
    · obtain rfl := List.mem_singleton.mp ho
      cases hnone
  flag := nofun

/-- An event that is not of the stream, and leaves it open or drops it. -/
theorem Follows.other (hs : Follows worker parsers asJob trace p) (he : e.ofStream = false)
    (h : step worker p.state e = some s) :
    Follows worker parsers asJob (trace ++ [e])
      (if s.stream then { p with state := s } else ⟨s, none, p.close none⟩) := by
  have hpulls : pulls [e] = [] := by
    cases e with
    | main e => cases e <;> first | rfl | cases he
    | _ => rfl
  have hleft (hlooping : p.state.main.looping = false) : s.main.looping = false := by
    cases e with
    | main e => exact (stepMain_left h hlooping).1
    | task i e =>
      obtain ⟨_, _, _, _, _, rfl⟩ := stepTask_eq_some.mp h
      exact hlooping
    | ack e => rwa [(stepAck_frame h).1]
  have hjobs : pulls (trace ++ [e]) = p.jobs.map asJob := by
    rw [pulls_append, hpulls, List.append_nil, hs.jobs]
  cases hstream : s.stream with
  | true =>
    rw [if_pos rfl]
    exact ⟨hs.append h, hjobs, hs.current, hs.past, fun o ho hnone => hleft (hs.dropped o ho hnone), fun _ => hstream⟩
  | false =>
    rw [if_neg Bool.false_ne_true]
    refine ⟨hs.append h, ?_, nofun, fun o ho => ?_, fun o ho hnone => ?_, nofun⟩
    · rw [hjobs, Session.jobs_shut, Session.flatMap_close]
    · rcases List.mem_append.mp ho with ho | ho
      · exact hs.past o ho
      · obtain ⟨⟨o', stream⟩, hcurrent, rfl⟩ := Option.map_eq_some_iff.mp (Option.mem_toList.mp ho)
        exact ⟨_, (hs.current o' stream hcurrent).2.symm⟩
    · rcases List.mem_append.mp ho with ho | ho
      · exact hleft (hs.dropped o ho hnone)
      · obtain ⟨c, hcurrent, -⟩ := Option.map_eq_some_iff.mp (Option.mem_toList.mp ho)
        exact step_stream h he (hs.flag (by rw [hcurrent]; rfl)) hstream

theorem Follows.connected (hs : Follows worker parsers asJob trace p) (inner : List InnerPoll) (format : Format)
    (h : step worker p.state (.main .connected) = some s) :
    Follows worker parsers asJob (trace ++ [.main .connected])
      ⟨s, some (⟨inner, format, [], none⟩, .new inner format), p.close none⟩ := by
  have hmain : p.state.main = .connecting := by
    cases stepMain_cases h with
    | connected hmain => exact hmain
  have hnone : p.current = none := by
    cases hcurrent : p.current with
    | none => rfl
    | some c =>
      have hopen := hs.flag (by rw [hcurrent]; rfl)
      rw [hs.execution.unconnected (.inl hmain)] at hopen
      cases hopen
  have hpast : p.close none = p.past := by
    rw [Session.close, hnone]
    exact List.append_nil _
  refine ⟨hs.append h, ?_, fun o stream heq => ?_, hpast ▸ hs.past, fun o ho hdropped => ?_, fun _ => ?_⟩
  · rw [pulls_append, hs.jobs]
    simp [pulls]
  · obtain ⟨rfl, rfl⟩ := Prod.mk.inj (Option.some.inj heq)
    exact ⟨rfl, rfl⟩
  · have hleft := hs.dropped o (hpast ▸ ho) hdropped
    rw [hmain] at hleft
    cases hleft
  · cases stepMain_cases h with
    | connected => rfl

theorem follows_poll (hs : Follows worker parsers asJob trace p) (hmain : p.state.main = .dispatching) {o : Opened J}
    {stream : TakeStream} (hcurrent : p.current = some (o, stream)) {r : Option Event × Session J}
    (h : poll worker parsers asJob p o stream = some r) : Follows worker parsers asJob (trace ++ r.1.toList) r.2 := by
  have hcontents := stream.pollNext_contents parsers
  unfold poll at h
  split at h
  · next stream' hpoll =>
    rw [hpoll] at hcontents
    obtain rfl := Option.some.inj h
    rw [Option.toList_none, List.append_nil]
    refine ⟨hs.execution, ?_, fun o' stream'' heq => ?_, hs.past, hs.dropped,
      fun _ => hs.flag (by rw [hcurrent]; rfl)⟩
    · obtain ⟨s₀, current, past⟩ := p
      obtain rfl : current = _ := hcurrent
      exact hs.jobs
    · obtain ⟨rfl, rfl⟩ := Prod.mk.inj (Option.some.inj heq)
      obtain ⟨hending, hbody⟩ := hs.current _ stream hcurrent
      exact ⟨hending, hcontents ▸ hbody⟩
  · next job stream' hpoll =>
    rw [hpoll] at hcontents
    obtain ⟨s, hstep, rfl⟩ := Option.map_eq_some_iff.mp h
    exact hs.pulled hmain hcurrent hcontents hstep
  · next err stream' hpoll =>
    rw [hpoll] at hcontents
    obtain ⟨s, hstep, rfl⟩ := Option.map_eq_some_iff.mp h
    refine hs.ended hmain hcurrent ?_ rfl hstep
    rw [hcontents, contents_of_error hpoll]
    rfl
  · next stream' hpoll =>
    rw [hpoll] at hcontents
    obtain ⟨s, hstep, rfl⟩ := Option.map_eq_some_iff.mp h
    exact hs.ended hmain hcurrent hcontents rfl hstep

theorem follows_step (hs : Follows worker parsers asJob trace p) {e : SessionEvent} {r : Option Event × Session J}
    (h : stepSession worker parsers asJob p e = some r) : Follows worker parsers asJob (trace ++ r.1.toList) r.2 := by
  cases e with
  | connected inner format =>
    obtain ⟨s, hstep, rfl⟩ := Option.map_eq_some_iff.mp h
    exact hs.connected inner format hstep
  | polled =>
    simp only [stepSession] at h
    split at h
    · next o stream hmain hcurrent =>
      split at h
      · exact follows_poll hs hmain hcurrent h
      · cases h
    · cases h
  | other e =>
    simp only [stepSession] at h
    split at h
    · cases h
    · next he =>
      obtain ⟨s, hstep, rfl⟩ := Option.map_eq_some_iff.mp h
      exact hs.other (Bool.eq_false_iff.mpr he) hstep

theorem follows_traced {t t' : List Event × Session J} (ht : Follows worker parsers asJob t.1 t.2) {e : SessionEvent}
    (h : stepTraced worker parsers asJob t e = some t') : Follows worker parsers asJob t'.1 t'.2 := by
  obtain ⟨r, hr, rfl⟩ := Option.map_eq_some_iff.mp h
  exact follows_step ht hr

theorem follows_initial {s₀ : State} (hstart : start worker = some s₀) :
    Follows worker parsers asJob [] ⟨s₀, none, []⟩ :=
  ⟨⟨s₀, hstart, rfl⟩, rfl, nofun, nofun, nofun, nofun⟩

end Follow

/-- **Main theorem.** A run of the worker on its streams is a run of the worker. The jobs that it has dispatched, with
the one in hand, are what decoding the bodies gave, in their order; a session ends with the whole of its body, or
where the worker has left its loop, and the one that is open has the rest of its body before it. -/
theorem session_follows {s₀ : State} (hstart : start worker = some s₀) {es : List SessionEvent} {trace : List Event}
    {p : Session J}
    (h : Data.Transition.run (stepTraced worker parsers asJob) ([], ⟨s₀, none, []⟩) es = some (trace, p)) :
    Execution worker trace p.state ∧ spawns trace ++ p.state.main.inHand = p.jobs.map asJob ∧
      (∀ o ∈ p.past, o.Decoded parsers ∧ (o.ending = none → p.state.main.looping = false)) ∧
      ∀ o stream, p.current = some (o, stream) →
        o.stream.contents parsers = o.jobs.map .ok ++ stream.contents parsers := by
  have hs : Follows worker parsers asJob trace p :=
    Data.Transition.run_invariant (I := fun t => Follows worker parsers asJob t.1 t.2)
      (fun _ _ _ ht hstep => follows_traced ht hstep) h (follows_initial hstart)
  refine ⟨hs.execution, ?_, fun o ho => ⟨hs.past o ho, hs.dropped o ho⟩,
    fun o stream ho => (hs.current o stream ho).2⟩
  rw [← hs.execution.dispatched.1, hs.jobs]

/-- A record is the byte of a digit, the number of the job. -/
def digitParsers : Parsers Job :=
  have parse := fun record : List UInt8 =>
    (.ok ⟨if record = [49] then "job-1" else "job-2"⟩ : Except String Job)
  ⟨parse, parse⟩

/-- Two frames in two chunks, the second of which ends the first frame and has the other whole. -/
def twoFrames : List InnerPoll := [.chunk [0, 0], .pending, .chunk [0, 1, 49, 0, 0, 0, 1, 50]]

def framesRun : List SessionEvent :=
  [.connected twoFrames .messagePack, .polled, .polled, .other (.main (.spawned ⟨"job-1"⟩)),
    .other (.task 0 .resumed), .polled, .other (.main (.spawned ⟨"job-2"⟩)), .polled]

set_option maxRecDepth 1024 in
theorem session_follows_twoFrames :
    ∃ (trace : List Event) (p : Session Job), Execution ⟨3, 3, true⟩ trace p.state ∧
      spawns trace = [⟨"job-1"⟩, ⟨"job-2"⟩] ∧
      p.past = [⟨twoFrames, .messagePack, [⟨"job-1"⟩, ⟨"job-2"⟩], some none⟩] ∧
      ∀ o ∈ p.past, o.Decoded digitParsers := by
  obtain ⟨trace, p, hrun, hspawned, hpast⟩ : ∃ (trace : List Event) (p : Session Job),
      Data.Transition.run (stepTraced ⟨3, 3, true⟩ digitParsers id) ([], ⟨initial, none, []⟩) framesRun =
          some (trace, p) ∧
        spawns trace = [⟨"job-1"⟩, ⟨"job-2"⟩] ∧
        p.past = [⟨twoFrames, .messagePack, [⟨"job-1"⟩, ⟨"job-2"⟩], some none⟩] := by
    refine ⟨_, _, rfl, ?_, ?_⟩ <;> rfl
  obtain ⟨hexecution, -, hdecoded, -⟩ := session_follows rfl hrun
  exact ⟨trace, p, hexecution, hspawned, hpast, fun o ho => (hdecoded o ho).1⟩

end Zizq.Worker
