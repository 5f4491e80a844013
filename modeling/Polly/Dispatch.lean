import Polly.PollerReady

/-!
# Dispatch — callbacks that disable channels of the running iteration (`EventLoop::loop`)

An iteration of the loop polls, calls `HandleEvent` on every channel of `active_channels_`, and runs
the pending functors.  `HandleEvent` calls the callbacks that the channel's `revents_` ask for, one
after the other, and the callbacks may make interest calls on any channel of the loop, as may the
functors and the code outside `loop()`.  `standing` records whether a channel has been disabled, and
whether it has been enabled again since; a poll that reports it makes it live again.

Neither the list of active channels nor `HandleEvent` looks at the masks, so a channel that is
disabled while it still has its turn in the running iteration is served nevertheless; and a channel
whose first call is `DisbaleAll` gets an entry with an empty mask, for which poll(2) reports
errors and hang-ups.

* `quiet_along`: disabled channels are left alone as long as every `DisbaleAll` is on a registered
  channel that has no turn left in the iteration.
-/

namespace Polly

open Runs Poller

/-- What has become of a channel: never disabled or reported since it came back, disabled, or
enabled again but not reported since. -/
inductive Standing where
  | live | disabled | reenabled
  deriving DecidableEq, Repr

/-- The standing after an interest call. -/
def Interest.standing : Interest → Standing → Standing
  | .disbaleAll, _ => .disabled
  | .enableReading, .disabled | .enableWriting, .disabled => .reenabled
  | _, st => st

structure Reactor (ι : Type*) where
  poller : Poller ι
  /-- the entries of `active_channels_` that have not had their turn -/
  active : List ι
  /-- the channel whose `HandleEvent` runs, and the callbacks it has still to call -/
  serving : Option (ι × List EventCallback)
  /-- `HandleEvent` has called a callback -/
  inCallback : Bool
  standing : ι → Standing

namespace Reactor

variable {ι : Type*} [DecidableEq ι]

inductive Act (ι : Type*) where
  /-- poll(2) returns, and `Poll` fills `active_channels_` -/
  | poll (numEvents : ℤ) (revents : List (BitVec 16))
  /-- `loop()` calls `HandleEvent` on the next active channel; `isSet` are its callbacks -/
  | handle (isSet : EventCallback → Bool)
  /-- `HandleEvent` calls the next callback -/
  | callback
  /-- `HandleEvent` returns -/
  | ret
  /-- user code in the loop thread calls `op` on channel `i` -/
  | call (i : ι) (op : Interest)

/-- No channel has a turn: `loop()` is at poll or runs functors, or it is not running. -/
def idle (s : Reactor ι) : Bool := s.active.isEmpty && s.serving.isNone

def poll (s : Reactor ι) (numEvents : ℤ) (revents : List (BitVec 16)) : Option (Reactor ι) :=
  (s.poller.poll numEvents revents []).toOption.map fun (p, active) =>
    { s with
      poller := p
      active := active
      standing := fun i =>
        if s.standing i = .reenabled ∧ i ∈ active then .live else s.standing i }

def step (s : Reactor ι) : Act ι → Option (Reactor ι)
  | .poll numEvents revents =>
    if s.idle && revents.length == s.poller.pollfds.length then s.poll numEvents revents else none
  | .handle isSet =>
    match s.serving, s.active with
    | none, i :: rest =>
      let left := (s.poller.chan i).handleEvent isSet
      some { s with active := rest, serving := some (i, left), inCallback := false }
    | _, _ => none
  | .callback =>
    match s.serving with
    | some (i, _ :: left) => some { s with serving := some (i, left), inCallback := true }
    | _ => none
  | .ret =>
    match s.serving with
    | some (_, []) => some { s with serving := none, inCallback := false }
    | _ => none
  | .call i op =>
    if s.inCallback || s.idle then
      (s.poller.step (i, op)).map fun p =>
        { s with
          poller := p
          standing := Function.update s.standing i (op.standing (s.standing i)) }
    else none

/-- A loop that has not polled yet. -/
def start (p : Poller ι) : Reactor ι := ⟨p, [], none, false, fun _ => .live⟩

/-- `HandleEvent` is called on live channels only, and so are callbacks. -/
def Quiet (s : Reactor ι) : Act ι → Prop
  | .handle _ => ∀ i ∈ s.active.head?, s.standing i = .live
  | .callback => ∀ sv ∈ s.serving, s.standing sv.1 = .live
  | _ => True

/-- A `DisbaleAll` is on a registered channel that has no turn left: it is not further down the list
of active channels, and if it is being served then no callback is left to call. -/
def Late (s : Reactor ι) : Act ι → Prop
  | .call i .disbaleAll => 0 ≤ (s.poller.chan i).index ∧ i ∉ s.active ∧
      ∀ sv ∈ s.serving, sv.1 = i → sv.2 = []
  | _ => True

instance (s : Reactor ι) (a : Act ι) : Decidable (Late s a) :=
  match a with
  | .call i .disbaleAll => inferInstanceAs (Decidable (0 ≤ (s.poller.chan i).index ∧ i ∉ s.active ∧
      ∀ sv ∈ s.serving, sv.1 = i → sv.2 = []))
  | .call _ .enableReading | .call _ .enableWriting | .call _ .disableWriting => .isTrue trivial
  | .poll .. | .handle _ | .callback | .ret => .isTrue trivial

/-! ### The invariant -/

/-- Channels with a turn are live, and a channel that is not live is out of the poller for good: it
has a position but is not in the map. -/
structure TurnInv (s : Reactor ι) : Prop where
  active : ∀ i ∈ s.active, s.standing i = .live
  serving : ∀ sv ∈ s.serving, sv.2 ≠ [] → s.standing sv.1 = .live
  out : ∀ i, s.standing i ≠ .live →
    0 ≤ (s.poller.chan i).index ∧ ∀ fd, s.poller.channels fd ≠ some i
  mapped : Mapped s.poller
  nonneg : ∀ i, 0 ≤ (s.poller.chan i).fd
  entries : ∀ fd ∈ s.poller.pollfds.map PollFd.fd, 0 ≤ fd

variable {s s' : Reactor ι}

omit [DecidableEq ι] in
theorem start_turnInv {p : Poller ι} (hp : Blank p) (hfd : ∀ i, 0 ≤ (p.chan i).fd) :
    TurnInv (start p) where
  active := by simp [start]
  serving := by simp [start]
  out := by simp [start]
  mapped := fun fd i hi => by
    rw [start, hp.channels fd] at hi
    cases hi
  nonneg := hfd
  entries := by simp [start, hp.pollfds]

theorem poll_turnInv (hI : TurnInv s) {numEvents : ℤ} {revents : List (BitVec 16)}
    (hlen : revents.length = s.poller.pollfds.length) (hserving : s.serving = none)
    (h : s.poll numEvents revents = some s') : TurnInv s' := by
  obtain ⟨⟨p, active⟩, ho, rfl⟩ := Option.map_eq_some_iff.mp h
  have hpoll : s.poller.poll numEvents revents [] = .ok (p, active) := by
    cases hc : s.poller.poll numEvents revents [] with
    | error e => simp [hc, Except.toOption] at ho
    | ok o =>
      simp only [hc, Except.toOption, Option.some.injEq] at ho
      rw [ho]
  obtain ⟨hfds, hch, hchan, hact⟩ := poll_frame hlen hpoll
  have hlive : ∀ i ∈ active, s.standing i = .live := by
    intro i hi
    by_contra hne
    rcases hact i hi with hi | ⟨fd, hfd⟩
    · cases hi
    · exact (hI.out i hne).2 fd hfd
  have hsame : ∀ i, (if s.standing i = .reenabled ∧ i ∈ active then Standing.live
      else s.standing i) = s.standing i := by
    intro i
    split_ifs with hi
    · exact (hlive i hi.2).symm
    · rfl
  refine ⟨fun i hi => ?_, by simp [hserving], fun i hi => ?_, poll_mapped hI.mapped hlen hpoll,
    fun i => ?_, ?_⟩
  · dsimp only
    rw [hsame]
    exact hlive i hi
  · dsimp only at hi ⊢
    rw [hsame] at hi
    obtain ⟨r, hr⟩ := hchan i
    rw [hr, hch]
    exact hI.out i hi
  · obtain ⟨r, hr⟩ := hchan i
    dsimp only
    rw [hr]
    exact hI.nonneg i
  · dsimp only
    rw [hfds]
    exact hI.entries

/-- A call is possible for live channels only, and what it does to the map concerns them only. -/
theorem TurnInv.call_live (hI : TurnInv s) {p : Poller ι} {i : ι} {op : Interest}
    (h : s.poller.call (i, op) = .ok p) : s.standing i = .live ∧
      ∀ j, s.standing j ≠ .live → 0 ≤ (p.chan j).index ∧ ∀ fd, p.channels fd ≠ some j := by
  have hlive : s.standing i = .live := by
    by_contra hne
    obtain ⟨hindex, hout⟩ := hI.out i hne
    rcases call_cases h with ⟨hneg, -⟩ | ⟨-, hmap, -⟩
    · exact absurd hindex (not_le.mpr hneg)
    · exact hout _ hmap
  refine ⟨hlive, fun j hj => ?_⟩
  have hji : j ≠ i := by
    rintro rfl
    exact hj hlive
  obtain ⟨hindex, hout⟩ := hI.out j hj
  rw [(call_chan h).2 j hji]
  refine ⟨hindex, fun fd hfd => ?_⟩
  rcases call_channels h hfd with hfd | ⟨-, heq⟩
  · exact hout fd hfd
  · exact hji heq

/-- `DisbaleAll` on a registered channel takes it out of the map. -/
theorem TurnInv.disbaleAll_out (hI : TurnInv s) {p : Poller ι} {i : ι}
    (hindex : 0 ≤ (s.poller.chan i).index) (h : s.poller.call (i, .disbaleAll) = .ok p) :
    0 ≤ (p.chan i).index ∧ ∀ fd, p.channels fd ≠ some i := by
  refine ⟨(call_chan h).1, fun fd hfd => ?_⟩
  have hfd' := call_mapped hI.mapped h fd i hfd
  rw [call_fd h] at hfd'
  rcases call_cases h with ⟨hneg, -⟩ | ⟨-, -, pfd, hpfd, hown, -, ⟨hne, -⟩ | ⟨-, hch, -⟩⟩
  · exact absurd hindex (not_le.mpr hneg)
  · exact hne rfl
  · -- entries have non-negative descriptors, so the erased key is the channel's own
    have hpos := hI.entries pfd.fd (List.mem_map_of_mem hpfd)
    have hkey : pfd.fd = (s.poller.chan i).fd := hown.resolve_right (by omega)
    rw [hch, hkey, hfd', Function.update_self] at hfd
    cases hfd

theorem call_turnInv (hI : TurnInv s) {i : ι} {op : Interest} (hlate : Late s (.call i op))
    {p : Poller ι} (h : s.poller.call (i, op) = .ok p) :
    TurnInv { s with
      poller := p
      standing := Function.update s.standing i (op.standing (s.standing i)) } := by
  obtain ⟨hlive, hout⟩ := hI.call_live h
  have hmapped := call_mapped hI.mapped h
  have hnonneg : ∀ j, 0 ≤ (p.chan j).fd := by
    intro j
    rw [call_fd h]
    exact hI.nonneg j
  have hentries : ∀ fd ∈ p.pollfds.map PollFd.fd, 0 ≤ fd := by
    intro fd hfd
    rcases call_entries h hfd with hfd | rfl
    · exact hI.entries fd hfd
    · exact hI.nonneg i
  by_cases hop : op = .disbaleAll
  · subst hop
    obtain ⟨hindex, hactive, hserving⟩ := hlate
    refine ⟨fun j hj => ?_, fun sv hsv hleft => ?_, fun j hj => ?_, hmapped, hnonneg, hentries⟩
    · have hne : j ≠ i := by rintro rfl; exact hactive hj
      dsimp only
      rw [Function.update_of_ne hne]
      exact hI.active j hj
    · have hne : sv.1 ≠ i := fun heq => hleft (hserving sv hsv heq)
      dsimp only
      rw [Function.update_of_ne hne]
      exact hI.serving sv hsv hleft
    · by_cases hji : j = i
      · subst hji
        exact hI.disbaleAll_out hindex h
      · dsimp only at hj
        rw [Function.update_of_ne hji] at hj
        exact hout j hj
  · -- the channel is live and stays so
    have hsame : Function.update s.standing i (op.standing (s.standing i)) = s.standing := by
      rw [hlive, show op.standing .live = .live by cases op <;> first | rfl | exact absurd rfl hop,
        ← hlive, Function.update_eq_self]
    rw [hsame]
    exact ⟨hI.active, hI.serving, hout, hmapped, hnonneg, hentries⟩

theorem step_turnInv (hI : TurnInv s) {a : Act ι} (hlate : Late s a) (h : step s a = some s') :
    TurnInv s' := by
  cases a with
  | poll numEvents revents =>
    simp only [step] at h
    split_ifs at h with hcond
    simp only [idle, Bool.and_eq_true, Option.isNone_iff_eq_none, beq_iff_eq] at hcond
    exact poll_turnInv hI hcond.2 hcond.1.2 h
  | handle isSet =>
    simp only [step] at h
    split at h
    · rename_i i rest hserving hactive
      cases h
      have hlive := hI.active i (by simp [hactive])
      refine ⟨fun j hj => hI.active j ?_, fun sv hsv _ => ?_, hI.out, hI.mapped, hI.nonneg,
        hI.entries⟩
      · rw [hactive]
        exact List.mem_cons_of_mem i hj
      · cases hsv
        exact hlive
    · cases h
  | callback =>
    simp only [step] at h
    split at h
    · rename_i i e left hserving
      cases h
      refine ⟨hI.active, fun sv hsv _ => ?_, hI.out, hI.mapped, hI.nonneg, hI.entries⟩
      cases hsv
      exact hI.serving (i, e :: left) hserving (List.cons_ne_nil e left)
    · cases h
  | ret =>
    simp only [step] at h
    split at h
    · cases h
      exact ⟨hI.active, fun sv hsv => (by cases hsv), hI.out, hI.mapped, hI.nonneg, hI.entries⟩
    · cases h
  | call i op =>
    simp only [step] at h
    split_ifs at h
    obtain ⟨p, hp, rfl⟩ := Option.map_eq_some_iff.mp h
    exact call_turnInv hI hlate (step_some.mp hp)

theorem quiet_of_turnInv (hI : TurnInv s) (a : Act ι) (h : (step s a).isSome = true) :
    Quiet s a := by
  cases a with
  | handle isSet =>
    intro i hi
    exact hI.active i (List.mem_of_mem_head? hi)
  | callback =>
    intro sv hsv
    refine hI.serving sv hsv fun hnil => ?_
    obtain ⟨i, left⟩ := sv
    subst hnil
    simp [step, Option.mem_def.mp hsv] at h
  | _ => trivial

/-- **A disabled channel gets no more callbacks**, for any channels of an empty poller and any
callbacks, as long as every `DisbaleAll` is on a registered channel without a turn left. -/
theorem quiet_along {p : Poller ι} (hp : Blank p) (hfd : ∀ i, 0 ≤ (p.chan i).fd)
    {as : List (Act ι)} (hrun : run step (start p) as = some s)
    (hlate : Along step Late (start p) as) : Along step Quiet (start p) as := by
  refine Along.of_inv (I := TurnInv) (C := fun s a => (step s a).isSome = true ∧ Late s a) ?_ ?_
    ((along_enabled hrun).and hlate) (start_turnInv hp hfd)
  · exact fun s a hI hC => quiet_of_turnInv hI a hC.1
  · exact fun s a s' hI hC h => step_turnInv hI hC.2 h

/-- Both channels are ready; the second one's callback gives up its own channel, and then a functor
the first one. -/
def politeCallback : List (Act (Fin 2)) :=
  [.call ⟨0, Nat.two_pos⟩ .enableReading, .call ⟨1, Nat.one_lt_two⟩ .enableReading, .poll 2 [1, 1],
    .handle fun _ => true, .callback, .ret, .handle fun _ => true, .callback,
    .call ⟨1, Nat.one_lt_two⟩ .disbaleAll, .ret, .call ⟨0, Nat.two_pos⟩ .disbaleAll]

theorem quiet_along_politeCallback : Along step Quiet (start pair) politeCallback := by
  have hend : (run step (start pair) politeCallback).isSome = true := by decide +kernel
  obtain ⟨s, hs⟩ := Option.isSome_iff_exists.mp hend
  exact quiet_along ⟨rfl, fun _ => rfl⟩ (by decide) hs (by decide +kernel)

/-- Both channels are ready, and the first one's callback disables the second one. -/
def rudeCallback : List (Act (Fin 2)) :=
  [.call ⟨0, Nat.two_pos⟩ .enableReading, .call ⟨1, Nat.one_lt_two⟩ .enableReading, .poll 2 [1, 1],
    .handle fun _ => true, .callback, .call ⟨1, Nat.one_lt_two⟩ .disbaleAll, .ret]

/-- The second channel is disabled, and `HandleEvent` is called on it and calls its read
callback. -/
theorem rudeCallback_served :
    ∃ s, run step (start pair) rudeCallback = some s ∧ s.standing 1 = .disabled ∧
      (s.poller.chan 1).events = 0 ∧ ¬Quiet s (.handle fun _ => true) ∧
      ∃ s', step s (.handle fun _ => true) = some s' ∧ s'.serving = some (1, [.read]) := by
  have hend : (run step (start pair) rudeCallback).map (fun s =>
      (s.standing 1, (s.poller.chan 1).events, s.active,
        (step s (.handle fun _ => true)).map Reactor.serving)) =
      some (.disabled, 0, [1], some (some (1, [.read]))) := rfl
  obtain ⟨s, hs, heq⟩ := Option.map_eq_some_iff.mp hend
  simp only [Prod.mk.injEq, Option.map_eq_some_iff] at heq
  obtain ⟨hstanding, hevents, hactive, hserved⟩ := heq
  refine ⟨s, hs, hstanding, hevents, fun hquiet => ?_, hserved⟩
  have hlive := hquiet 1 (by simp [hactive])
  rw [hstanding] at hlive
  cases hlive

end Reactor

end Polly
