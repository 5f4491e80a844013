import Polly.EventLoop
import Polly.PollerTable

/-!
# LoopPoller — the loop on its poller (`net/eventloop.cc`, `net/poller.cc`)

The constructor of an `EventLoop` registers the channels of its timerfd and of its eventfd; after
that the table belongs to the channels of the code that runs in the loop thread, and removing one of
them leaves stale positions behind.  `LoopPoller` is the loop with its table: poll(2) sees the
entries of the table, and the handlers that run are those of the channels `fillActiveChannels`
finds.

* `OwnInv`: whatever other channels do, the loop's own two stay in the table and in the map.
* `refines_loop`: so the loop behaves as `Loop` says, where poll(2) reports the eventfd exactly
  while it is readable.
-/

namespace Polly

open Runs

/-- The channels of a loop: its own two, and those of other objects. -/
inductive LoopChan (ι : Type*) where
  | timer | wakeup
  | user (i : ι)
  deriving DecidableEq

/-- The handler of a channel, as far as the loop's own data go. -/
def LoopChan.ready {ι : Type*} : LoopChan ι → Ready
  | .wakeup => .wakeup
  | .timer | .user _ => .other

structure LoopPoller (τ F ι : Type*) where
  loop : Loop τ F
  poller : Poller (LoopChan ι)

namespace LoopPoller

variable {τ F ι : Type*} [DecidableEq τ] [DecidableEq ι]

/-- What poll(2) may report: events for at least one entry, and for the eventfd, which is polled for
reading, exactly while its counter is positive. -/
def Reports (s : LoopPoller τ F ι) (revents : List (BitVec 16)) : Prop :=
  revents.length = s.poller.pollfds.length ∧ (∀ r ∈ revents, 0 ≤ r.toInt) ∧
    (∃ r ∈ revents, r ≠ 0) ∧
    ∀ e ∈ s.poller.pollfds.zip revents, e.1.fd = (s.poller.chan .wakeup).fd →
      (e.2 ≠ 0 ↔ 0 < s.loop.counter)

instance (s : LoopPoller τ F ι) (revents : List (BitVec 16)) : Decidable (s.Reports revents) :=
  inferInstanceAs (Decidable (_ ∧ _ ∧ _ ∧ _))

/-- The poller before any call; other channels have not been constructed. -/
def blank (timerfd wakeupfd : ℤ) : Poller (LoopChan ι) where
  chan
    | .timer => Channel.new timerfd
    | .wakeup => Channel.new wakeupfd
    | .user _ => Channel.new 0
  pollfds := []
  channels := fun _ => none

/-- The constructor: the members, then `EnableReading` of the timerfd's channel in the constructor
of the timer queue, and of the eventfd's. -/
def construct (timerfd wakeupfd : ℤ) : Option (LoopPoller τ F ι) :=
  (run Poller.act (blank timerfd wakeupfd)
    [.call (.timer, .enableReading), .call (.wakeup, .enableReading)]).map fun poller =>
      ⟨Loop.init, poller⟩

inductive Act (τ F ι : Type*) where
  /-- a step of the loop or of a poster; poll is a step of its own -/
  | loop (a : Loop.Act τ F)
  /-- code in the loop thread constructs a channel -/
  | channel (i : ι) (fd : ℤ)
  /-- code in the loop thread makes an interest call -/
  | call (i : ι) (op : Interest)
  /-- poll(2) returns -/
  | poll (revents : List (BitVec 16))

/-- The number poll(2) returns. -/
def numEvents (revents : List (BitVec 16)) : ℤ := (revents.filter (· ≠ 0#16)).length

def step (s : LoopPoller τ F ι) : Act τ F ι → Option (LoopPoller τ F ι)
  | .loop a =>
    match a with
    | .poll _ => none
    | a => (Loop.step s.loop a).map fun loop => { s with loop := loop }
  | .channel i fd =>
    guarded (s.loop.InUserCode ∧ 0 ≤ fd ∧
        s.poller.channels (s.poller.chan (.user i)).fd ≠ some (.user i))
      { s with poller := s.poller.construct (.user i) fd }
  | .call i op =>
    if s.loop.InUserCode then
      (Poller.act s.poller (.call (.user i, op))).map fun poller => { s with poller := poller }
    else none
  | .poll revents =>
    if s.loop.pc = .poll ∧ s.Reports revents then
      (s.poller.poll (numEvents revents) revents []).toOption.map fun out =>
        { loop := { s.loop with pc := .dispatch, active := out.2.map LoopChan.ready }
          poller := out.1 }
    else none

/-- The first interest call of a channel asks for something. -/
def Enables (s : LoopPoller τ F ι) : Act τ F ι → Prop
  | .call i op => Poller.Enables s.poller (.call (.user i, op))
  | .loop _ | .channel _ _ | .poll _ => True

instance (s : LoopPoller τ F ι) : (a : Act τ F ι) → Decidable (s.Enables a)
  | .call i op => inferInstanceAs (Decidable (Poller.Enables s.poller (.call (.user i, op))))
  | .loop _ | .channel _ _ | .poll _ => inferInstanceAs (Decidable True)

/-! ### The loop's own channels -/

/-- A channel of the loop is registered for reading. -/
structure Registered (p : Poller (LoopChan ι)) (c : LoopChan ι) (own : ℤ) : Prop where
  fd : (p.chan c).fd = own
  events : (p.chan c).events = kReadEvent
  mapped : p.channels own = some c

structure OwnInv (timerfd wakeupfd : ℤ) (p : Poller (LoopChan ι)) : Prop where
  exact : p.Exact
  timer : Registered p .timer timerfd
  wakeup : Registered p .wakeup wakeupfd

section Own

variable {p p' : Poller (LoopChan ι)} {c d : LoopChan ι} {own timerfd wakeupfd : ℤ} {i : ι}

omit [DecidableEq ι] in
/-- A registered channel has an entry in the table. -/
theorem Registered.entry (h : Registered p c own) (hp : p.Exact) :
    ∃ e ∈ p.pollfds, e.fd = own ∧ e.events = kReadEvent.setWidth 16 := by
  have hmem : own ∈ p.pollfds.map PollFd.fd := by
    rw [hp.keys, h.mapped]
    rfl
  obtain ⟨e, he, hfd⟩ := List.mem_map.mp hmem
  refine ⟨e, he, hfd, ?_⟩
  rw [hp.entries e he c (by rw [hfd, h.mapped]), h.events]

theorem update_chan_of_ne {mask : BitVec 32} (hd : c ≠ d) (hu : p.update d mask = .ok p') :
    p'.chan c = p.chan c := by
  rcases Poller.update_cases hu with ⟨-, -, hchan, -⟩ | ⟨-, -, hchan, -⟩
  · rw [hchan, Function.update_of_ne hd]
  · rw [hchan, Function.update_of_ne hd]

/-- A call of another channel. -/
theorem Registered.update (h : Registered p c own) {mask : BitVec 32} (hd : c ≠ d)
    (hchannels : p'.channels = Function.update p.channels (p.chan d).fd
      (if mask = 0 then none else some d))
    (hu : p.update d mask = .ok p') : Registered p' c own := by
  have hne : own ≠ (p.chan d).fd := by
    rintro rfl
    rcases Poller.update_cases hu with ⟨-, hnone, -⟩ | ⟨-, hmap, -⟩
    · rw [h.mapped] at hnone
      cases hnone
    · rw [h.mapped] at hmap
      exact hd (Option.some.inj hmap)
  have hchan := update_chan_of_ne hd hu
  refine ⟨by rw [hchan]; exact h.fd, by rw [hchan]; exact h.events, ?_⟩
  rw [hchannels, Function.update_of_ne hne]
  exact h.mapped

/-- An interest call that passes. -/
theorem call_exact (h : p.Exact) {op : Interest} (hen : p.Enables (.call (d, op)))
    (hp : p.act (.call (d, op)) = some p') :
    p'.Exact ∧ p.update d (op.apply (p.chan d)).events = .ok p' ∧
      p'.channels = Function.update p.channels (p.chan d).fd
        (if (op.apply (p.chan d)).events = 0 then none else some d) := by
  have hcall := Poller.step_some.mp hp
  rw [Poller.call_eq_update] at hcall
  obtain ⟨hexact, hchannels⟩ :=
    Poller.update_exact h (op.apply_isMask (h.masks _)) hen hcall
  exact ⟨hexact, hcall, hchannels⟩

/-- The first call of a channel of the loop. -/
theorem Registered.first (h : p.Exact) (hnew : p.chan c = Channel.new own)
    (hp : p.act (.call (c, .enableReading)) = some p') :
    p'.Exact ∧ Registered p' c own ∧ p.update c kReadEvent = .ok p' ∧
      p'.channels = Function.update p.channels (p.chan c).fd (some c) := by
  have hevents : (Interest.enableReading.apply (p.chan c)).events = kReadEvent := by
    simp [hnew, Interest.apply, Channel.enableReading, Channel.new]
  have hen : p.Enables (.call (c, .enableReading)) := by
    intro _
    rw [hevents]
    decide
  obtain ⟨hexact, hu, hchannels⟩ := call_exact h hen hp
  rw [hevents] at hu hchannels
  rw [if_neg (by decide)] at hchannels
  have hchan : (p'.chan c).fd = own ∧ (p'.chan c).events = kReadEvent := by
    rcases Poller.update_cases hu with ⟨-, -, hchan, -⟩ | ⟨-, -, hchan, -⟩
    · rw [hchan, Function.update_self, hnew]
      exact ⟨rfl, rfl⟩
    · rw [hchan, Function.update_self, hnew]
      exact ⟨rfl, rfl⟩
  refine ⟨hexact, ⟨hchan.1, hchan.2, ?_⟩, hu, hchannels⟩
  rw [hchannels, hnew]
  exact Function.update_self ..

theorem Registered.construct (h : Registered p c own) (hc : c ≠ .user i) {fd : ℤ} :
    Registered (p.construct (.user i) fd) c own := by
  have hchan : (p.construct (.user i) fd).chan c = p.chan c := Poller.construct_of_ne hc
  exact ⟨by rw [hchan]; exact h.fd, by rw [hchan]; exact h.events, h.mapped⟩

theorem Registered.poll (h : Registered p c own) {revents : List (BitVec 16)} {n : ℤ}
    {active : List (LoopChan ι)} (hlen : revents.length = p.pollfds.length)
    (hp : p.poll n revents [] = .ok (p', active)) : Registered p' c own := by
  obtain ⟨-, hchannels, hchan, -⟩ := Poller.poll_frame hlen hp
  obtain ⟨r, hr⟩ := hchan c
  exact ⟨by rw [hr]; exact h.fd, by rw [hr]; exact h.events, by rw [hchannels]; exact h.mapped⟩

theorem OwnInv.call (h : OwnInv timerfd wakeupfd p) {op : Interest}
    (hen : p.Enables (.call (.user i, op))) (hp : p.act (.call (.user i, op)) = some p') :
    OwnInv timerfd wakeupfd p' := by
  obtain ⟨hexact, hu, hchannels⟩ := call_exact h.exact hen hp
  exact ⟨hexact, h.timer.update (by simp) hchannels hu, h.wakeup.update (by simp) hchannels hu⟩

omit [DecidableEq ι] in
theorem blank_unused (htimer : 0 ≤ timerfd) (hwakeup : 0 ≤ wakeupfd) :
    (blank timerfd wakeupfd : Poller (LoopChan ι)).Unused := by
  refine ⟨fun c => ?_, fun c => ?_, rfl, fun _ => rfl⟩
  · cases c <;> rfl
  · cases c with
    | timer => exact htimer
    | wakeup => exact hwakeup
    | user i => exact le_rfl

omit [DecidableEq τ] in
theorem construct_ownInv {s₀ : LoopPoller τ F ι} (htimer : 0 ≤ timerfd) (hwakeup : 0 ≤ wakeupfd)
    (h : construct timerfd wakeupfd = some s₀) :
    s₀.loop = Loop.init ∧ OwnInv timerfd wakeupfd s₀.poller := by
  obtain ⟨p, hrun, rfl⟩ := Option.map_eq_some_iff.mp h
  refine ⟨rfl, ?_⟩
  obtain ⟨p₁, h₁, hrun⟩ := run_cons_some.mp hrun
  obtain ⟨p₂, h₂, hrun⟩ := run_cons_some.mp hrun
  cases hrun
  have hexact := (blank_unused (ι := ι) htimer hwakeup).exact
  have hfirst : (blank timerfd wakeupfd : Poller (LoopChan ι)).chan .timer = Channel.new timerfd :=
    rfl
  obtain ⟨hexact₁, htimer₁, hu₁, -⟩ := Registered.first hexact hfirst h₁
  have hnew : p₁.chan .wakeup = Channel.new wakeupfd := update_chan_of_ne (by simp) hu₁
  obtain ⟨hexact₂, hwakeup₂, hu₂, hchannels₂⟩ := Registered.first hexact₁ hnew h₂
  refine ⟨hexact₂, htimer₁.update (by simp) ?_ hu₂, hwakeup₂⟩
  rw [hchannels₂, if_neg (by decide)]

/-! ### Polls -/

theorem numEvents_pos {revents : List (BitVec 16)} (hsome : ∃ r ∈ revents, r ≠ 0) :
    0 < numEvents revents := by
  obtain ⟨r, hr, hne⟩ := hsome
  have hmem : r ∈ revents.filter (· ≠ 0#16) := List.mem_filter.mpr ⟨hr, by simpa using hne⟩
  rw [numEvents]
  exact_mod_cast List.length_pos_of_mem hmem

omit [DecidableEq ι] in
theorem mem_reported_polled {revents : List (BitVec 16)} {pfd : PollFd} :
    pfd ∈ Poller.reported (p.polled revents).pollfds ↔
      ∃ e ∈ p.pollfds.zip revents, e.2 ≠ 0 ∧ { e.1 with revents := e.2 } = pfd := by
  have hzip : (p.polled revents).pollfds =
      (p.pollfds.zip revents).map fun e => { e.1 with revents := e.2 } := by
    rw [Poller.polled, ← List.map_uncurry_zip_eq_zipWith]
    rfl
  rw [Poller.reported, hzip, List.filter_map]
  simp only [List.mem_map, List.mem_filter, Function.comp_apply, decide_eq_true_eq, and_assoc]
  rfl

/-- A poll whose count is right finds the channels of the reported entries. -/
theorem poll_complete (h : p.Exact) {revents : List (BitVec 16)}
    (hlen : revents.length = p.pollfds.length) (hrev : ∀ r ∈ revents, 0 ≤ r.toInt)
    (hsome : ∃ r ∈ revents, r ≠ 0) :
    ∃ p' ready, p.poll (numEvents revents) revents [] = .ok (p', ready) ∧
      ∀ c, c ∈ ready ↔ ∃ e ∈ p.pollfds.zip revents, e.2 ≠ 0 ∧ p.channels e.1.fd = some c := by
  have hpos := numEvents_pos hsome
  obtain ⟨p', ready, hfill, hF⟩ : ∃ p' ready,
      (p.polled revents).fillActiveChannels (numEvents revents) [] = .ok (p', [] ++ ready) ∧
        Poller.Filled (p.polled revents) p' (p.polled revents).pollfds ready :=
    h.keyed.fill h.mapped hlen hrev rfl hpos
  refine ⟨p', ready, ?_, fun c => ?_⟩
  · rw [Poller.poll, if_pos hpos]
    exact hfill
  · have hmem : c ∈ ready ↔ some c ∈ ready.map some := by simp
    rw [hmem, hF.exact, List.mem_map]
    constructor
    · rintro ⟨_, hpfd, hc⟩
      obtain ⟨e, he, hne, rfl⟩ := mem_reported_polled.mp hpfd
      exact ⟨e, he, hne, hc⟩
    · rintro ⟨e, he, hne, hc⟩
      exact ⟨_, mem_reported_polled.mpr ⟨e, he, hne, rfl⟩, hc⟩

end Own

/-! ### Runs -/

section Runs

variable {s s' : LoopPoller τ F ι} {timerfd wakeupfd : ℤ}

omit [DecidableEq τ] in
/-- The eventfd's channel is found exactly while the eventfd is readable. -/
theorem poll_wakeup (h : OwnInv timerfd wakeupfd s.poller) {revents : List (BitVec 16)}
    (hr : s.Reports revents) :
    ∃ p' ready, s.poller.poll (numEvents revents) revents [] = .ok (p', ready) ∧
      ready.map LoopChan.ready ≠ [] ∧
      (Ready.wakeup ∈ ready.map LoopChan.ready ↔ 0 < s.loop.counter) := by
  obtain ⟨hlen, hrev, hsome, hwakeup⟩ := hr
  obtain ⟨p', ready, hpoll, hready⟩ := poll_complete h.exact hlen hrev hsome
  have hkind : Ready.wakeup ∈ ready.map LoopChan.ready ↔ LoopChan.wakeup ∈ ready := by
    rw [List.mem_map]
    constructor
    · rintro ⟨c, hc, heq⟩
      cases c with
      | wakeup => exact hc
      | timer => cases heq
      | user i => cases heq
    · exact fun hc => ⟨_, hc, rfl⟩
  refine ⟨p', ready, hpoll, ?_, ?_⟩
  · obtain ⟨r, hr, hne⟩ := hsome
    rw [← List.map_snd_zip hlen.le] at hr
    obtain ⟨e, he, rfl⟩ := List.mem_map.mp hr
    have hkey : (s.poller.channels e.1.fd).isSome :=
      (h.exact.keys _).mp (List.mem_map_of_mem (List.of_mem_zip he).1)
    obtain ⟨c, hc⟩ := Option.isSome_iff_exists.mp hkey
    have hmem := (hready c).mpr ⟨e, he, hne, hc⟩
    exact List.ne_nil_of_mem (List.mem_map_of_mem hmem)
  · rw [hkind, hready]
    constructor
    · rintro ⟨e, he, hne, hc⟩
      exact (hwakeup e he (h.exact.mapped _ _ hc).symm).mp hne
    · intro hpos
      obtain ⟨pfd, hpfd, hfd, -⟩ := h.wakeup.entry h.exact
      rw [← List.map_fst_zip hlen.ge] at hpfd
      obtain ⟨e, he, rfl⟩ := List.mem_map.mp hpfd
      have hown : e.1.fd = (s.poller.chan .wakeup).fd := hfd.trans h.wakeup.fd.symm
      refine ⟨e, he, (hwakeup e he hown).mpr hpos, ?_⟩
      rw [hfd]
      exact h.wakeup.mapped

theorem step_ownInv {a : Act τ F ι} (h : OwnInv timerfd wakeupfd s.poller) (ha : s.Enables a)
    (hs : step s a = some s') :
    OwnInv timerfd wakeupfd s'.poller ∧ ∃ bs, run Loop.step s.loop bs = some s'.loop := by
  cases a with
  | loop a =>
    have hloop : ∃ loop, Loop.step s.loop a = some loop ∧ s' = { s with loop := loop } := by
      cases a with
      | poll ready => cases hs
      | _ =>
        obtain ⟨loop, hloop, rfl⟩ := Option.map_eq_some_iff.mp hs
        exact ⟨loop, hloop, rfl⟩
    obtain ⟨loop, hloop, rfl⟩ := hloop
    exact ⟨h, [a], run_cons_some.mpr ⟨loop, hloop, run_nil loop⟩⟩
  | channel i fd =>
    obtain ⟨⟨-, hfd, hfree⟩, rfl⟩ := guarded_eq_some.mp hs
    have hfree' : ∀ fd, s.poller.channels fd ≠ some (.user i) := by
      intro fd hmap
      rw [← h.exact.mapped fd _ hmap] at hmap
      exact hfree hmap
    exact ⟨⟨h.exact.construct hfree' hfd, h.timer.construct (by simp),
      h.wakeup.construct (by simp)⟩, [], rfl⟩
  | call i op =>
    simp only [step] at hs
    split_ifs at hs
    obtain ⟨p, hp, rfl⟩ := Option.map_eq_some_iff.mp hs
    exact ⟨h.call ha hp, [], rfl⟩
  | poll revents =>
    simp only [step] at hs
    split_ifs at hs with hcond
    obtain ⟨hpc, hr⟩ := hcond
    obtain ⟨p', ready, hpoll, hne, hiff⟩ := poll_wakeup h hr
    simp only [hpoll, Except.toOption, Option.map_some, Option.some.injEq] at hs
    subst hs
    refine ⟨⟨Poller.poll_exact h.exact hr.1 hpoll, h.timer.poll hr.1 hpoll,
      h.wakeup.poll hr.1 hpoll⟩, [.poll (ready.map LoopChan.ready)], ?_⟩
    refine run_cons_some.mpr ⟨_, ?_, run_nil _⟩
    exact guarded_eq_some.mpr ⟨⟨hpc, hne, hiff⟩, rfl⟩

/-- **The loop works on its poller.**  In every run of a loop with its poller, whatever channels
the code in the loop thread constructs, changes and removes, and whatever positions are stale: the
loop's two channels are in the table for reading; the steps of the loop are those of `Loop`; no poll
trips over an assertion; and a poll while functors are in the queue, with every wake-up written,
makes the channel of the eventfd active. -/
theorem refines_loop {s₀ : LoopPoller τ F ι} {as : List (Act τ F ι)} (htimer : 0 ≤ timerfd)
    (hwakeup : 0 ≤ wakeupfd) (hstart : construct timerfd wakeupfd = some s₀)
    (has : Along step Enables s₀ as) (hrun : run step s₀ as = some s) :
    (∀ fd ∈ [timerfd, wakeupfd], ∃ e ∈ s.poller.pollfds, e.fd = fd ∧
      e.events = kReadEvent.setWidth 16) ∧
    s.loop.Reachable ∧
    ∀ revents, s.loop.pc = .poll → s.Reports revents →
      ∃ s', step s (.poll revents) = some s' ∧
        (s.loop.functors ≠ [] → (∀ t, s.loop.poster t ≠ .pushed) → .wakeup ∈ s'.loop.active) := by
  obtain ⟨hinit, hown⟩ := construct_ownInv htimer hwakeup hstart
  have hI : OwnInv timerfd wakeupfd s.poller ∧ s.loop.Reachable := by
    refine run_inv_along (I := fun s => OwnInv timerfd wakeupfd s.poller ∧ s.loop.Reachable)
      (fun s a s' hI ha hs => ?_) hrun has ⟨hown, _, [], rfl, by rw [hinit]; rfl⟩
    obtain ⟨hown', bs, hbs⟩ := step_ownInv hI.1 ha hs
    obtain ⟨l₀, cs, hl₀, hcs⟩ := hI.2
    refine ⟨hown', l₀, cs ++ bs, hl₀, ?_⟩
    rw [run_append, hcs, Option.bind_some, hbs]
  obtain ⟨hown, hreach⟩ := hI
  refine ⟨?_, hreach, fun revents hpc hr => ?_⟩
  · rw [List.forall_mem_cons, List.forall_mem_singleton]
    exact ⟨hown.timer.entry hown.exact, hown.wakeup.entry hown.exact⟩
  · obtain ⟨p', ready, hpoll, -, hiff⟩ := poll_wakeup hown hr
    refine ⟨⟨{ s.loop with pc := .dispatch, active := ready.map LoopChan.ready }, p'⟩, ?_, ?_⟩
    · rw [step, if_pos ⟨hpc, hr⟩, hpoll]
      rfl
    · intro hne hposters
      have hann : s.loop.Announced := by
        refine hreach.inv ?_ fun _ _ _ => Loop.step_announced
        rintro l rfl
        exact fun _ hne => absurd rfl hne
      rcases hann (by simp [hpc]) hne with hpos | ⟨t, ht⟩
      · exact hiff.mpr hpos
      · exact absurd ht (hposters t)

end Runs

/-- A channel is removed and leaves the one behind it with a stale position; then a functor is
posted. -/
def detour : List (Act Unit ℕ Bool) :=
  [.channel false 7, .call false .enableReading, .channel true 8, .call true .enableReading,
    .call false .disbaleAll, .loop .enter, .loop .clearQuit, .loop .test,
    .loop (.runInLoop (some ()) 1), .loop (.wakeup ())]

theorem refines_loop_detour : ∃ s₀ s : LoopPoller Unit ℕ Bool, construct 3 4 = some s₀ ∧
    run step s₀ detour = some s ∧ s.loop.functors = [1] ∧
    s.poller.pollfds.map PollFd.fd = [3, 4, 8] ∧
    ∃ s', step s (.poll [0, 1, 0]) = some s' ∧ .wakeup ∈ s'.loop.active := by
  have halong : (construct 3 4).all fun s₀ => decide (Along step Enables s₀ detour) := by
    decide +kernel
  have htable : ((construct 3 4).bind fun s₀ => run step s₀ detour).map (fun s =>
      (s.poller.pollfds, (s.poller.chan .wakeup).fd)) =
      some ([⟨3, 3, 0⟩, ⟨4, 3, 0⟩, ⟨8, 3, 0⟩], 4) := by
    decide +kernel
  have hqueue : ((construct 3 4).bind fun s₀ => run step s₀ detour).map (fun s =>
      (s.loop.pc, s.loop.functors, s.loop.counter, s.loop.poster ())) =
      some (.poll, [1], 1, .idle) := by
    decide +kernel
  obtain ⟨s, hs, htable⟩ := Option.map_eq_some_iff.mp htable
  obtain ⟨s₀, hstart, hrun⟩ := Option.bind_eq_some_iff.mp hs
  simp only [hs, Option.map_some, Option.some.injEq, Prod.mk.injEq] at htable hqueue
  obtain ⟨hfds, hown⟩ := htable
  obtain ⟨hpc, hfunctors, hcounter, hposter⟩ := hqueue
  have has : Along step Enables s₀ detour := by
    rw [hstart] at halong
    exact of_decide_eq_true halong
  have hr : s.Reports [0, 1, 0] := by
    rw [Reports, hfds, hown, hcounter]
    exact ⟨rfl, by simp, ⟨1, by simp, by simp⟩, by simp⟩
  obtain ⟨s', hs', hwakeup⟩ :=
    (refines_loop (by decide) (by decide) hstart has hrun).2.2 [0, 1, 0] hpc hr
  refine ⟨s₀, s, hstart, hrun, hfunctors, by rw [hfds]; rfl, s', hs', hwakeup ?_ fun t => ?_⟩
  · rw [hfunctors]
    exact List.cons_ne_nil _ _
  · rw [hposter]
    decide

end LoopPoller

end Polly
