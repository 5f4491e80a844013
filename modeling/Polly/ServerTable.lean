import Polly.ServerSpec

/-!
# ServerTable — the connection table and the notifications of a server

A connection is open exactly if the table has it under its name (`TableInv`), exactly if its channel
is registered (`PollInv`), and exactly if the user has been told that it is up and not yet that it
is down (`NotesInv`).  Each of the three is about the connections and one other part of the server,
and has a lemma for each of the things that can happen to the connections: one changes and stays as
open as it was, one closes, one is added.  `ServerInv` puts them together along `Effect`.

* `connections_exact`: all this from the start of a server to the end of its destructor, and that no
  assertion on the way fails.
-/

namespace Polly

open Runs

namespace TcpServer

open Conn

variable {conns : List Conn} {i : ℕ} {c c' : Conn}

/-! ### The connections -/

/-- Connection `i` has been accepted and is not closed. -/
def IsOpen (conns : List Conn) (i : ℕ) : Prop :=
  ∃ c, conns[i]? = some c ∧ c.state ≠ .kDisconnected

theorem isOpen_iff (hc : conns[i]? = some c) : IsOpen conns i ↔ c.state ≠ .kDisconnected := by
  constructor
  · rintro ⟨y, hy, hopen⟩
    rw [hc] at hy
    cases hy
    exact hopen
  · exact fun hopen => ⟨c, hc, hopen⟩

theorem lt_of_getElem? (hc : conns[i]? = some c) : i < conns.length :=
  (List.getElem?_eq_some_iff.mp hc).1

theorem getElem?_set_iff {y : Conn} {j : ℕ} (hc : conns[i]? = some c) :
    (conns.set i c')[j]? = some y ↔ (j = i ∧ y = c') ∨ (j ≠ i ∧ conns[j]? = some y) := by
  have hlt := lt_of_getElem? hc
  by_cases hj : j = i
  · subst hj
    simp [hlt, eq_comm]
  · simp [hj, Ne.symm hj]

theorem getElem?_concat_iff {y : Conn} {j : ℕ} : (conns ++ [c])[j]? = some y ↔
    (j = conns.length ∧ y = c) ∨ (j ≠ conns.length ∧ conns[j]? = some y) := by
  rcases lt_trichotomy j conns.length with hj | rfl | hj
  · simp [List.getElem?_append_left hj, hj.ne]
  · simp [eq_comm]
  · have hle : (conns ++ [c]).length ≤ j := by simpa using hj
    simp [List.getElem?_eq_none hle, List.getElem?_eq_none hj.le, hj.ne']

theorem isOpen_set (hc : conns[i]? = some c) (j : ℕ) : IsOpen (conns.set i c') j ↔
    (j = i ∧ c'.state ≠ .kDisconnected) ∨ (j ≠ i ∧ IsOpen conns j) := by
  unfold IsOpen
  simp only [getElem?_set_iff hc]
  constructor
  · rintro ⟨y, ⟨rfl, rfl⟩ | ⟨hj, hy⟩, hopen⟩
    · exact Or.inl ⟨rfl, hopen⟩
    · exact Or.inr ⟨hj, y, hy, hopen⟩
  · rintro (⟨rfl, hopen⟩ | ⟨hj, y, hy, hopen⟩)
    · exact ⟨c', Or.inl ⟨rfl, rfl⟩, hopen⟩
    · exact ⟨y, Or.inr ⟨hj, hy⟩, hopen⟩

theorem isOpen_set_of_state (hc : conns[i]? = some c)
    (hstate : c'.state = .kDisconnected ↔ c.state = .kDisconnected) (j : ℕ) :
    IsOpen (conns.set i c') j ↔ IsOpen conns j := by
  rw [isOpen_set hc, Ne, hstate]
  by_cases hj : j = i
  · subst hj
    simp [isOpen_iff hc]
  · simp [hj]

theorem isOpen_concat (hopen : c.state ≠ .kDisconnected) (j : ℕ) :
    IsOpen (conns ++ [c]) j ↔ j = conns.length ∨ IsOpen conns j := by
  unfold IsOpen
  simp only [getElem?_concat_iff]
  constructor
  · rintro ⟨y, ⟨rfl, -⟩ | ⟨-, hy⟩, hstate⟩
    · exact Or.inl rfl
    · exact Or.inr ⟨y, hy, hstate⟩
  · rintro (rfl | ⟨y, hy, hstate⟩)
    · exact ⟨c, Or.inl ⟨rfl, rfl⟩, hopen⟩
    · exact ⟨y, Or.inr ⟨(lt_of_getElem? hy).ne, hy⟩, hstate⟩

/-! ### The table -/

section Table

variable {name : String} {names : List String} {m m' : AList fun _ : String => Option ℕ}

/-- The name a server assigns to connection `i`. -/
def nameOf (name : String) (i : ℕ) : String := name ++ "#" ++ toString i

theorem nameOf_injective (name : String) : Function.Injective (nameOf name) := by
  intro i j hij
  have hnum : toString i = toString j := (String.append_right_inj _).mp hij
  exact Nat.repr_inj.mp hnum

/-- The table has the open connections under their names. -/
structure TableInv (name : String) (names : List String) (m : AList fun _ : String => Option ℕ)
    (conns : List Conn) : Prop where
  names : names = (List.range conns.length).map (nameOf name)
  table : ∀ n i, m.lookup n = some (some i) ↔ n = nameOf name i ∧ IsOpen conns i

theorem TableInv.getD_names (h : TableInv name names m conns) (hi : i < conns.length) :
    names.getD i "" = nameOf name i := by
  simp [h.names, hi]

theorem TableInv.stays (h : TableInv name names m conns) (hc : conns[i]? = some c)
    (hstate : c'.state = .kDisconnected ↔ c.state = .kDisconnected) :
    TableInv name names m (conns.set i c') where
  names := by rw [List.length_set]; exact h.names
  table := fun n j => by rw [isOpen_set_of_state hc hstate]; exact h.table n j

theorem TableInv.closes (h : TableInv name names m conns) (hc : conns[i]? = some c)
    (hstate : c'.state = .kDisconnected)
    (hm : ∀ n j, m'.lookup n = some (some j) ↔
      n ≠ nameOf name i ∧ m.lookup n = some (some j)) :
    TableInv name names m' (conns.set i c') where
  names := by rw [List.length_set]; exact h.names
  table := by
    intro n j
    rw [hm, h.table, isOpen_set hc]
    constructor
    · rintro ⟨hn, rfl, hj⟩
      exact ⟨rfl, Or.inr ⟨fun hji => hn (by rw [hji]), hj⟩⟩
    · rintro ⟨rfl, ⟨-, hopen⟩ | ⟨hji, hj⟩⟩
      · exact absurd hstate hopen
      · exact ⟨fun hn => hji (nameOf_injective name hn), rfl, hj⟩

theorem TableInv.accept (h : TableInv name names m conns) (hopen : c.state ≠ .kDisconnected) :
    TableInv name (names ++ [nameOf name conns.length])
      (m.insert (nameOf name conns.length) (some conns.length)) (conns ++ [c]) where
  names := by rw [List.length_append, List.length_singleton, List.range_succ, List.map_append,
    ← h.names]; rfl
  table := by
    intro n j
    rw [isOpen_concat hopen]
    by_cases hn : n = nameOf name conns.length
    · subst hn
      rw [AList.lookup_insert, Option.some.injEq, Option.some.injEq]
      constructor
      · rintro rfl
        exact ⟨rfl, Or.inl rfl⟩
      · exact fun hj => nameOf_injective name hj.1
    · rw [AList.lookup_insert_ne hn, h.table]
      refine and_congr_right fun hnj => ⟨Or.inr, fun hj => hj.resolve_left ?_⟩
      rintro rfl
      exact hn hnj

end Table

/-! ### The poller -/

section Poll

variable {base p : Registry}

/-- The channels of the open connections are registered, and beside them those of `base`. -/
structure PollInv (base p : Registry) (conns : List Conn) : Prop where
  registered : ∀ (i : ℕ) c, conns[i]? = some c →
    (p c.channel.fd = some (.conn i) ↔ c.state ≠ .kDisconnected)
  owned : ∀ fd i, p fd = some (.conn i) → ∃ c, conns[i]? = some c ∧ c.channel.fd = fd
  others : ∀ fd, (∀ i, p fd ≠ some (.conn i)) → p fd = base fd
  free : ∀ (i : ℕ) c, conns[i]? = some c → c.state ≠ .kDisconnected → base c.channel.fd = none

theorem PollInv.stays (h : PollInv base p conns) (hc : conns[i]? = some c)
    (hfd : c'.channel.fd = c.channel.fd)
    (hstate : c'.state = .kDisconnected ↔ c.state = .kDisconnected) :
    PollInv base p (conns.set i c') where
  registered := by
    intro j y hy
    rcases (getElem?_set_iff hc).mp hy with ⟨rfl, rfl⟩ | ⟨-, hy⟩
    · rw [hfd, h.registered j c hc, Ne, Ne, hstate]
    · exact h.registered j y hy
  owned := by
    intro fd j hreg
    obtain ⟨y, hy, rfl⟩ := h.owned fd j hreg
    simp only [getElem?_set_iff hc]
    by_cases hj : j = i
    · subst hj
      rw [hc] at hy
      cases hy
      exact ⟨c', Or.inl ⟨rfl, rfl⟩, hfd⟩
    · exact ⟨y, Or.inr ⟨hj, hy⟩, rfl⟩
  others := h.others
  free := by
    intro j y hy hopen
    rcases (getElem?_set_iff hc).mp hy with ⟨rfl, rfl⟩ | ⟨-, hy⟩
    · rw [hfd]
      exact h.free j c hc (by rwa [Ne, ← hstate])
    · exact h.free j y hy hopen

theorem PollInv.closes (h : PollInv base p conns) (hc : conns[i]? = some c)
    (hopen : c.state ≠ .kDisconnected) (hfd : c'.channel.fd = c.channel.fd)
    (hstate : c'.state = .kDisconnected) :
    PollInv base (Function.update p c.channel.fd none) (conns.set i c') where
  registered := by
    intro j y hy
    rcases (getElem?_set_iff hc).mp hy with ⟨rfl, rfl⟩ | ⟨hj, hy⟩
    · rw [hfd, Function.update_self, hstate]
      exact ⟨nofun, fun hne => absurd rfl hne⟩
    · by_cases hyfd : y.channel.fd = c.channel.fd
      · -- two connections are not registered under one descriptor, so the other one is closed
        rw [hyfd, Function.update_self]
        refine ⟨nofun, fun hopeny => ?_⟩
        have hreg := (h.registered j y hy).mpr hopeny
        rw [hyfd, (h.registered i c hc).mpr hopen] at hreg
        cases hreg
        exact absurd rfl hj
      · rw [Function.update_of_ne hyfd]
        exact h.registered j y hy
  owned := by
    intro fd j hreg
    have hne : fd ≠ c.channel.fd := by
      rintro rfl
      rw [Function.update_self] at hreg
      cases hreg
    rw [Function.update_of_ne hne] at hreg
    obtain ⟨y, hy, rfl⟩ := h.owned fd j hreg
    have hj : j ≠ i := by
      rintro rfl
      rw [hc] at hy
      cases hy
      exact hne rfl
    exact ⟨y, (getElem?_set_iff hc).mpr (Or.inr ⟨hj, hy⟩), rfl⟩
  others := by
    intro fd hno
    by_cases hne : fd = c.channel.fd
    · rw [hne, Function.update_self, h.free i c hc hopen]
    · simp only [Function.update_of_ne hne] at hno ⊢
      exact h.others fd hno
  free := by
    intro j y hy hopeny
    rcases (getElem?_set_iff hc).mp hy with ⟨rfl, rfl⟩ | ⟨-, hy⟩
    · exact absurd hstate hopeny
    · exact h.free j y hy hopeny

theorem PollInv.accept (h : PollInv base p conns) (hfree : p c.channel.fd = none)
    (hopen : c.state ≠ .kDisconnected) :
    PollInv base (Function.update p c.channel.fd (some (.conn conns.length)))
      (conns ++ [c]) where
  registered := by
    intro j y hy
    rcases getElem?_concat_iff.mp hy with ⟨rfl, rfl⟩ | ⟨hj, hy⟩
    · rw [Function.update_self]
      exact ⟨fun _ => hopen, fun _ => rfl⟩
    · have hreg := h.registered j y hy
      by_cases hyfd : y.channel.fd = c.channel.fd
      · rw [hyfd, hfree] at hreg
        rw [hyfd, Function.update_self, ← hreg]
        refine ⟨fun heq => ?_, nofun⟩
        cases heq
        exact absurd rfl hj
      · rw [Function.update_of_ne hyfd]
        exact hreg
  owned := by
    intro fd j hreg
    simp only [getElem?_concat_iff]
    by_cases hne : fd = c.channel.fd
    · subst hne
      rw [Function.update_self] at hreg
      cases hreg
      exact ⟨c, Or.inl ⟨rfl, rfl⟩, rfl⟩
    · rw [Function.update_of_ne hne] at hreg
      obtain ⟨y, hy, hyfd⟩ := h.owned fd j hreg
      exact ⟨y, Or.inr ⟨(lt_of_getElem? hy).ne, hy⟩, hyfd⟩
  others := by
    intro fd hno
    by_cases hne : fd = c.channel.fd
    · subst hne
      rw [Function.update_self] at hno
      exact absurd rfl (hno _)
    · simp only [Function.update_of_ne hne] at hno ⊢
      exact h.others fd hno
  free := by
    intro j y hy hopeny
    rcases getElem?_concat_iff.mp hy with ⟨rfl, rfl⟩ | ⟨-, hy⟩
    · rw [← h.others _ (by rw [hfree]; nofun), hfree]
    · exact h.free j y hy hopeny

end Poll

/-! ### The notifications -/

section Notes

variable {isSet : CallbacksSet} {notes notes' : List (ℕ × Bool)}

/-- The notifications about connection `i`. -/
def notesOf (notes : List (ℕ × Bool)) (i : ℕ) : List Bool :=
  (notes.filter fun p => p.1 = i).map Prod.snd

/-- What the user has been told about a connection in a state. -/
def told (isSet : CallbacksSet) (state : ConnState) : List Bool :=
  if isSet.connection then (if state = .kDisconnected then [true, false] else [true]) else []

/-- The user has been told about every connection what there is to tell. -/
structure NotesInv (isSet : CallbacksSet) (notes : List (ℕ × Bool)) (conns : List Conn) :
    Prop where
  current : ∀ (i : ℕ) c, conns[i]? = some c → notesOf notes i = told isSet c.state
  noted : ∀ p ∈ notes, p.1 < conns.length

theorem told_of_open {state : ConnState} (h : state ≠ .kDisconnected) :
    told isSet state = if isSet.connection then [true] else [] := by
  rw [told, if_neg h]

/-- One more notification, if the user wants any. -/
theorem notesOf_concat {v : Bool} (b : Bool) (j : ℕ) :
    notesOf (if b then notes ++ [(i, v)] else notes) j =
      notesOf notes j ++ if b = true ∧ j = i then [v] else [] := by
  unfold notesOf
  by_cases hb : b = true
  · by_cases hj : j = i
    · simp [hb, hj]
    · simp [hb, hj, Ne.symm hj]
  · simp [hb]

theorem mem_concat {v b : Bool} {q : ℕ × Bool}
    (hq : q ∈ if b then notes ++ [(i, v)] else notes) : q ∈ notes ∨ q.1 = i := by
  split_ifs at hq
  · rcases List.mem_append.mp hq with hq | hq
    · exact Or.inl hq
    · exact Or.inr (by rw [List.mem_singleton.mp hq])
  · exact Or.inl hq

theorem NotesInv.stays (h : NotesInv isSet notes conns) (hc : conns[i]? = some c)
    (hstate : c'.state = .kDisconnected ↔ c.state = .kDisconnected) :
    NotesInv isSet notes (conns.set i c') where
  current := by
    intro j y hy
    rcases (getElem?_set_iff hc).mp hy with ⟨rfl, rfl⟩ | ⟨-, hy⟩
    · rw [h.current j c hc]
      simp only [told, hstate]
    · exact h.current j y hy
  noted := by rw [List.length_set]; exact h.noted

theorem NotesInv.closes (h : NotesInv isSet notes conns) (hc : conns[i]? = some c)
    (hopen : c.state ≠ .kDisconnected) (hstate : c'.state = .kDisconnected) :
    NotesInv isSet (if isSet.connection then notes ++ [(i, false)] else notes)
      (conns.set i c') where
  current := by
    intro j y hy
    rw [notesOf_concat]
    rcases (getElem?_set_iff hc).mp hy with ⟨rfl, rfl⟩ | ⟨hj, hy⟩
    · rw [h.current j c hc, told_of_open hopen, hstate]
      by_cases hcon : isSet.connection = true
      · simp [told, hcon]
      · simp [told, hcon]
    · rw [if_neg (fun hji => hj hji.2), List.append_nil]
      exact h.current j y hy
  noted := by
    intro q hq
    rw [List.length_set]
    rcases mem_concat hq with hq | hq
    · exact h.noted q hq
    · rw [hq]
      exact lt_of_getElem? hc

theorem NotesInv.accept (h : NotesInv isSet notes conns) (hopen : c.state ≠ .kDisconnected) :
    NotesInv isSet (if isSet.connection then notes ++ [(conns.length, true)] else notes)
      (conns ++ [c]) where
  current := by
    intro j y hy
    rw [notesOf_concat]
    rcases getElem?_concat_iff.mp hy with ⟨rfl, rfl⟩ | ⟨hj, hy⟩
    · have hnil : notesOf notes conns.length = [] := by
        rw [notesOf, List.map_eq_nil_iff, List.filter_eq_nil_iff]
        intro q hq
        have := h.noted q hq
        simp only [decide_eq_true_eq]
        omega
      rw [hnil, told_of_open hopen]
      by_cases hcon : isSet.connection = true
      · simp [hcon]
      · simp [hcon]
    · rw [if_neg (fun hji => hj hji.2), List.append_nil]
      exact h.current j y hy
  noted := by
    intro q hq
    rw [List.length_append, List.length_singleton]
    rcases mem_concat hq with hq | hq
    · have := h.noted q hq
      omega
    · omega

end Notes

/-! ### The server -/

variable {s s' : TcpServer} {base : Registry} {o : Out} {held : List Ref}

structure ServerInv (base : Registry) (s : TcpServer) : Prop where
  nextConnId : s.nextConnId = s.conns.length
  steady : ∀ (i : ℕ) c, s.conns[i]? = some c → Steady c ∧ c.isSet = { s.isSet with close := true }
  rests : ∀ f ∈ s.frames, f.rest.Finished
  table : TableInv s.name s.names s.connections s.conns
  poll : PollInv base s.poller s.conns
  notes : NotesInv s.isSet s.notes s.conns
  nulls : s.phase = .running → ∀ n, s.connections.lookup n ≠ some none
  ended : s.phase = .destroyed → ∀ i, ¬IsOpen s.conns i

theorem ServerInv.connName (hI : ServerInv base s) (hc : s.conns[i]? = some c) :
    s.connName i = nameOf s.name i := hI.table.getD_names (lt_of_getElem? hc)

theorem mem_enter_frames {f : Frame} (hf : f ∈ (s.enter i c o held).frames) :
    f ∈ s.frames ∨ ∃ cb, o.call = some (cb, f.rest) := by
  simp only [enter] at hf
  split at hf
  · exact Or.inl hf
  · rename_i cb rest hcall
    rcases List.mem_cons.mp hf with rfl | hf
    · exact Or.inr ⟨cb, hcall⟩
    · exact Or.inl hf

theorem enter_notes_of_stays (ho : Stays c o) : (s.enter i c o held).notes = s.notes := by
  simp only [enter]
  split
  · rename_i rest hcall
    exact absurd rfl (ho.call _ _ hcall).1
  · rfl

/-- The down notification. -/
theorem enter_notes_of_closes (ho : Closes c o) : (s.enter i c o held).notes =
    if c.isSet.connection then s.notes ++ [(i, false)] else s.notes := by
  simp only [enter, ho.call, ho.state]
  split_ifs <;> rfl

theorem ServerInv.steady_set (hI : ServerInv base s) (hc : s.conns[i]? = some c)
    (hsteady : Steady c') (hset : c'.isSet = c.isSet) (j : ℕ) (y : Conn)
    (hy : (s.conns.set i c')[j]? = some y) :
    Steady y ∧ y.isSet = { s.isSet with close := true } := by
  rcases (getElem?_set_iff hc).mp hy with ⟨rfl, rfl⟩ | ⟨-, hy⟩
  · exact ⟨hsteady, hset.trans (hI.steady j c hc).2⟩
  · exact hI.steady j y hy

/-- A function that stays keeps the invariant. -/
theorem ServerInv.stays (hI : ServerInv base s) (hc : s.conns[i]? = some c) (ho : Stays c o) :
    ServerInv base (s.enter i c o held) where
  nextConnId := hI.nextConnId.trans List.length_set.symm
  steady := hI.steady_set hc ho.steady ho.isSet
  rests := by
    intro f hf
    rcases mem_enter_frames hf with hf | ⟨cb, hcall⟩
    · exact hI.rests f hf
    · exact (ho.call cb _ hcall).2
  table := hI.table.stays hc ho.state
  poll := by
    rw [enter_poller_of_stays ho (hI.poll.registered i c hc).mpr]
    exact hI.poll.stays hc ho.passed.1 ho.state
  notes := by
    rw [enter_notes_of_stays ho]
    exact hI.notes.stays hc ho.state
  nulls := hI.nulls
  ended := fun hphase j hj => hI.ended hphase j ((isOpen_set_of_state hc ho.state j).mp hj)

/-- Closing a connection keeps the invariant, if its name goes out of the table with it. -/
theorem ServerInv.closes (hI : ServerInv base s) {m : AList fun _ : String => Option ℕ}
    (hc : s.conns[i]? = some c) (ho : Closes c o) (hphase : s.phase ≠ .destroyed)
    (hm : ∀ n j, m.lookup n = some (some j) ↔
      n ≠ nameOf s.name i ∧ s.connections.lookup n = some (some j))
    (hnulls : s.phase = .running → ∀ n, m.lookup n ≠ some none) :
    ServerInv base ({ s with connections := m }.enter i c o held) where
  nextConnId := hI.nextConnId.trans List.length_set.symm
  steady := hI.steady_set hc ho.steady ho.isSet
  rests := by
    intro f hf
    rcases mem_enter_frames hf with hf | ⟨cb, hcall⟩
    · exact hI.rests f hf
    · rw [ho.call] at hcall
      split_ifs at hcall
      obtain ⟨-, hrest⟩ := Prod.mk.inj (Option.some.inj hcall)
      rw [← hrest]
      rfl
  table := hI.table.closes hc ho.state hm
  poll := by
    rw [enter_poller_of_closes ho]
    exact hI.poll.closes hc ho.opened ho.fd ho.state
  notes := by
    have hset : c.isSet.connection = s.isSet.connection := by rw [(hI.steady i c hc).2]
    rw [enter_notes_of_closes ho, hset]
    exact hI.notes.closes hc ho.opened ho.state
  nulls := hnulls
  ended := fun hended => absurd hended hphase

/-- The connection that `newConnection` leaves. -/
def established (s : TcpServer) (fd : ℤ) : Conn :=
  { Conn.new fd { s.isSet with close := true } with state := .kConnected }

theorem established_steady (fd : ℤ) : Steady (s.established fd) where
  interested := by
    intro _
    unfold Interested
    rw [if_pos (show (s.established fd).sndBuffer.toList = [] from Buf.toList_new)]
    change (0 : BitVec 32) ||| kReadEvent = kReadEvent
    decide
  off := by
    refine ⟨fun h => ?_, nofun⟩
    rcases h with h | h
    · cases h
    · cases h

theorem newConnection_conns (fd : ℤ) (hid : s.nextConnId = s.conns.length) :
    (s.newConnection fd).conns = s.conns ++ [s.established fd] := by
  change (s.conns ++ [Conn.new fd { s.isSet with close := true }]).set s.nextConnId
    (Conn.new fd { s.isSet with close := true }).connectEstablished.conn = _
  rw [connectEstablished_conn, hid, List.set_append_right _ _ le_rfl, Nat.sub_self]
  rfl

theorem newConnection_poller (fd : ℤ) : (s.newConnection fd).poller =
    Function.update s.poller fd (some (.conn s.nextConnId)) := by
  have hupdates : (Conn.new fd { s.isSet with close := true }).updates = [kReadEvent] := by
    change [(0 : BitVec 32) ||| kReadEvent] = [kReadEvent]
    decide
  unfold newConnection enter
  simp only [connectEstablished_conn, hupdates, List.drop_length, Registry.updates,
    List.foldl_cons, List.foldl_nil, Registry.update]
  rw [if_neg (by decide)]

/-- The up notification. -/
theorem newConnection_notes (fd : ℤ) : (s.newConnection fd).notes =
    if s.isSet.connection then s.notes ++ [(s.nextConnId, true)] else s.notes := by
  have hset : (Conn.new fd { s.isSet with close := true }).isSet.connection =
      s.isSet.connection := rfl
  unfold newConnection enter
  simp only [connectEstablished_conn, connectEstablished_call, hset]
  split_ifs <;> rfl

/-- Accepting a connection keeps the invariant. -/
theorem ServerInv.accept (hI : ServerInv base s) {fd : ℤ} (hphase : s.phase = .running)
    (hfd : s.poller fd = none) : ServerInv base (s.newConnection fd) := by
  have hconns := newConnection_conns fd hI.nextConnId
  have hopen : (s.established fd).state ≠ .kDisconnected := nofun
  refine
    { nextConnId := ?_
      steady := ?_
      rests := ?_
      table := ?_
      poll := ?_
      notes := ?_
      nulls := ?_
      ended := fun hended => absurd (hphase.symm.trans hended) nofun }
  · rw [hconns, List.length_append, ← hI.nextConnId]
    rfl
  · intro j y hy
    rw [hconns] at hy
    rcases getElem?_concat_iff.mp hy with ⟨rfl, rfl⟩ | ⟨-, hy⟩
    · exact ⟨established_steady fd, rfl⟩
    · exact hI.steady j y hy
  · intro f hf
    rcases mem_enter_frames hf with hf | ⟨cb, hcall⟩
    · exact hI.rests f hf
    · rw [connectEstablished_call] at hcall
      split_ifs at hcall
      obtain ⟨-, hrest⟩ := Prod.mk.inj (Option.some.inj hcall)
      rw [← hrest]
      trivial
  · rw [hconns]
    have htable := hI.table.accept hopen
    rw [← hI.nextConnId] at htable
    exact htable
  · rw [hconns, newConnection_poller, hI.nextConnId]
    exact hI.poll.accept hfd hopen
  · rw [hconns, newConnection_notes, hI.nextConnId]
    exact hI.notes.accept hopen
  · intro _ n
    change (s.connections.insert (nameOf s.name s.nextConnId) (some s.nextConnId)).lookup n ≠ _
    by_cases hn : n = nameOf s.name s.nextConnId
    · subst hn
      rw [AList.lookup_insert]
      nofun
    · rw [AList.lookup_insert_ne hn]
      exact hI.nulls hphase n

theorem lookup_erase_iff {m : AList fun _ : String => Option ℕ} {k n : String} {v : Option ℕ} :
    (m.erase k).lookup n = some v ↔ n ≠ k ∧ m.lookup n = some v := by
  by_cases hn : n = k
  · subst hn
    simp
  · simp [AList.lookup_erase_ne hn, hn]

theorem lookup_insert_none_iff {m : AList fun _ : String => Option ℕ} {k n : String} {j : ℕ} :
    (m.insert k none).lookup n = some (some j) ↔ n ≠ k ∧ m.lookup n = some (some j) := by
  by_cases hn : n = k
  · subst hn
    simp
  · simp [AList.lookup_insert_ne hn, hn]

/-- **What a step can do** keeps the invariant. -/
theorem Effect.serverInv (h : Effect s s') (hI : ServerInv base s) : ServerInv base s' := by
  cases h with
  | accept fd hphase hfd => exact hI.accept hphase hfd
  | stays d frames i c o held hframes hc ho =>
    have hI' : ServerInv base { s with dispatching := d, frames := frames } :=
      { hI with rests := fun f hf => hI.rests f (hframes f hf) }
    exact hI'.stays hc ho
  | closes d i c o held hphase hc ho =>
    have hI' : ServerInv base { s with dispatching := d } := { hI with }
    refine hI'.closes hc ho (by rw [show _ = _ from hphase]; nofun) (fun n j => ?_) fun _ n hn => ?_
    · rw [hI.connName hc]
      exact lookup_erase_iff
    · exact hI.nulls hphase n (lookup_erase_iff.mp hn).2
  | destroysNext i c o held hphase hc ho =>
    refine hI.closes hc ho (by rw [hphase]; nofun) (fun n j => ?_) fun hrunning => ?_
    · rw [hI.connName hc]
      exact lookup_insert_none_iff
    · exact absurd (hphase.symm.trans hrunning) nofun
  | keeps kept d => exact { hI with }
  | destroys n hphase => exact { hI with nulls := nofun, ended := nofun }
  | finishes hphase hnull =>
    refine { hI with nulls := nofun, ended := fun _ i hopen => ?_ }
    have hentry := (hI.table.table _ i).mpr ⟨rfl, hopen⟩
    cases hnull _ (AList.mem_lookup_iff.mp hentry)

/-- **One step** of a server that has the invariant. -/
theorem ServerInv.step_effect {a : Act} (hI : ServerInv base s) (ha : sendsOpen s a = true)
    (h : step s a = some s') : Effect s s' := by
  refine TcpServer.step_effect (fun i c hc => ?_) (fun i c hc hentry => ?_) hI.rests ha h
  · obtain ⟨hsteady, hset⟩ := hI.steady i c hc
    exact ⟨hsteady, by rw [hset]⟩
  · exact (isOpen_iff hc).mp ((hI.table.table _ i).mp hentry).2

theorem new_serverInv (name : String) (isSet : CallbacksSet) (listenFd : ℤ)
    (others : ℤ → Option ℕ) :
    ServerInv ((Registry.ofOthers others).update listenFd .listen kReadEvent)
      (new name isSet listenFd others) := by
  set s := new name isSet listenFd others
  have hnone : ∀ (i : ℕ) c, s.conns[i]? ≠ some c := fun i c => by simp [s, new]
  have hno : ∀ i, ¬IsOpen s.conns i := fun i ⟨c, hc, _⟩ => hnone i c hc
  have hlookup : ∀ n, s.connections.lookup n = none := fun n => AList.lookup_empty n
  have hreg : ∀ fd i, s.poller fd ≠ some (.conn i) := by
    intro fd i hreg
    change Function.update _ _ _ fd = _ at hreg
    by_cases hfd : fd = listenFd
    · rw [hfd, Function.update_self, if_neg (by decide)] at hreg
      cases hreg
    · rw [Function.update_of_ne hfd] at hreg
      obtain ⟨k, -, hk⟩ := Option.map_eq_some_iff.mp hreg
      cases hk
  exact
    { nextConnId := rfl
      steady := fun i c hc => absurd hc (hnone i c)
      rests := fun f hf => absurd hf List.not_mem_nil
      table := ⟨rfl, fun n i => by simp [hlookup, hno]⟩
      poll := ⟨fun i c hc => absurd hc (hnone i c), fun fd i h => absurd h (hreg fd i),
        fun _ _ => rfl, fun i c hc => absurd hc (hnone i c)⟩
      notes := ⟨fun i c hc => absurd hc (hnone i c), fun q hq => absurd hq List.not_mem_nil⟩
      nulls := fun _ n => by simp [hlookup]
      ended := fun _ => hno }

theorem Effect.isSet (h : Effect s s') : s'.isSet = s.isSet := by
  cases h <;> rfl

/-- A run in which `Send` is called on open connections only. -/
theorem run_serverInv {name : String} {isSet : CallbacksSet} {listenFd : ℤ}
    {others : ℤ → Option ℕ} {as : List Act}
    (hrun : run step (new name isSet listenFd others) as = some s)
    (hsends : Along step (fun s a => sendsOpen s a = true)
      (new name isSet listenFd others) as) :
    ServerInv ((Registry.ofOthers others).update listenFd .listen kReadEvent) s ∧
      s.isSet = isSet := by
  refine run_inv_along (I := fun s =>
    ServerInv ((Registry.ofOthers others).update listenFd .listen kReadEvent) s ∧
      s.isSet = isSet) ?_ hrun hsends ⟨new_serverInv name isSet listenFd others, rfl⟩
  rintro s a s' ⟨hI, hset⟩ ha h
  have heff := hI.step_effect ha h
  exact ⟨heff.serverInv hI, heff.isSet.trans hset⟩

/-! ### Assertions -/

theorem handleClose_isSome {left : List EventCallback}
    (hopen : c.state = .kConnected ∨ c.state = .kDisconnecting) (hset : c.isSet.close = true) :
    (c.handleClose left).isSome = true := by
  rw [handleClose_eq hopen hset]
  rfl

theorem handleRead_isSome {r : ReadResult} {left : List EventCallback}
    (hopen : c.state = .kConnected ∨ c.state = .kDisconnecting) (hset : c.isSet.close = true)
    (hr : (c.sock.readv c.revBuffer.raw.offered r).isSome = true) :
    (c.handleRead left r).isSome = true := by
  obtain ⟨⟨sock, got⟩, hgot⟩ := Option.isSome_iff_exists.mp hr
  unfold handleRead
  rw [hgot, Option.bind_some]
  cases got with
  | error e => rfl
  | bytes data =>
    dsimp only
    split_ifs
    · rfl
    · rfl
    · exact handleClose_isSome hopen hset

theorem handleWrite_isSome {w : WriteResult} {left : List EventCallback}
    (hw : (c.sock.write c.sndBuffer.toList w).isSome = true) :
    (c.handleWrite left w).isSome = true := by
  obtain ⟨sock, hsock⟩ := Option.isSome_iff_exists.mp hw
  unfold handleWrite
  split_ifs
  · rw [hsock, Option.bind_some]
    cases w with
    | error => rfl
    | wouldBlock => rfl
    | wrote n =>
      dsimp only
      split_ifs
      · have hn : n ≤ c.sndBuffer.readableBytes := by
          rw [← Buf.length_toList]
          exact (write_wrote hsock).1
        simp [Buf.retrieve, hn]
      · rfl
  · rfl

/-- No assertion fails in `HandleEvent` of a registered channel. -/
theorem ServerInv.event_isSome (hI : ServerInv base s) (hc : s.conns[i]? = some c)
    {revents : BitVec 32} {r : ReadResult} {w : WriteResult} (hphase : s.phase = .running)
    (hbetween : s.betweenEvents = true) (hreg : s.poller c.channel.fd = some (.conn i))
    (hr : (c.sock.readv c.revBuffer.raw.offered r).isSome = true)
    (hw : (c.sock.write c.sndBuffer.toList w).isSome = true) :
    (step s (.event i revents r w)).isSome = true := by
  obtain ⟨hsteady, hset⟩ := hI.steady i c hc
  have hclose : c.isSet.close = true := by rw [hset]
  have hstate := (hI.poll.registered i c hc).mp hreg
  have hopen := hsteady.open_iff.mp hstate
  have hmem : s.connName i ∈ s.connections := by
    rw [hI.connName hc, ← AList.lookup_isSome,
      (hI.table.table _ i).mpr ⟨rfl, (isOpen_iff hc).mpr hstate⟩]
    rfl
  have hclosing : ∀ {t : TcpServer} {c' : Conn} {out : Option Out}, t.connections = s.connections →
      t.connName i = s.connName i → out.isSome = true → (t.closing i c' out).isSome = true := by
    intro t c' out hconn hname hout
    obtain ⟨o, rfl⟩ := Option.isSome_iff_exists.mp hout
    simp [closing, removeConnection, guarded, hconn, hname, hmem]
  simp only [step, hc, Option.bind_some]
  rw [if_pos ⟨hphase, hbetween, hreg⟩]
  unfold handleEvent
  split
  · exact hclosing rfl rfl (handleClose_isSome hopen hclose)
  · dsimp only
    split_ifs
    · exact hclosing rfl rfl (handleRead_isSome hopen hclose hr)
    · rw [Option.isSome_map]
      exact handleRead_isSome hopen hclose hr
  · rw [Option.isSome_map]
    exact handleWrite_isSome hw
  · rfl

/-! ### The result -/

/-- **The connection table and the notifications.**  In every run of a server in which `Send` is not
called after the down notification: `connections_` maps exactly the names of the accepted, not yet
closed connections to them (and has null pointers only in the destructor); the names are distinct;
the connections in it are connected or disconnecting; `HandleEvent` of a registered channel finds
the state and the entry that the assertions of `HandleClose` and of the close callback demand, and
does not fail; a connection without references is closed, as its destructor demands; and the user is
told once that a connection is up, and once that it is down when it is closed, which all are at the
end. -/
theorem connections_exact (name : String) (isSet : CallbacksSet) (listenFd : ℤ)
    (others : ℤ → Option ℕ) {as : List Act} {s : TcpServer}
    (hrun : run step (new name isSet listenFd others) as = some s)
    (hsends : Along step (fun s a => sendsOpen s a = true)
      (new name isSet listenFd others) as) :
    (∀ n i, s.connections.lookup n = some (some i) ↔
      ∃ c, s.conns[i]? = some c ∧ s.names[i]? = some n ∧ c.state ≠ .kDisconnected) ∧
    (s.phase = .running → ∀ n, s.connections.lookup n ≠ some none) ∧
    s.names.length = s.conns.length ∧ s.names.Nodup ∧
    (∀ (i : ℕ) c, s.conns[i]? = some c → s.connections.lookup (s.connName i) = some (some i) →
      c.state = .kConnected ∨ c.state = .kDisconnecting) ∧
    (∀ (i : ℕ) c, s.conns[i]? = some c → s.poller c.channel.fd = some (.conn i) →
      (c.state = .kConnected ∨ c.state = .kDisconnecting) ∧
      s.connections.lookup (s.connName i) = some (some i) ∧
      ∀ revents r w, s.phase = .running → s.betweenEvents = true →
        (c.sock.readv c.revBuffer.raw.offered r).isSome = true →
        (c.sock.write c.sndBuffer.toList w).isSome = true →
        (step s (.event i revents r w)).isSome = true) ∧
    (∀ (i : ℕ) c, s.conns[i]? = some c → s.refs i = 0 → c.state = .kDisconnected) ∧
    (isSet.connection = true → ∀ (i : ℕ) c, s.conns[i]? = some c →
      notesOf s.notes i = if c.state = .kDisconnected then [true, false] else [true]) ∧
    (s.phase = .destroyed → ∀ (i : ℕ) c, s.conns[i]? = some c → c.state = .kDisconnected) := by
  obtain ⟨hI, hset⟩ := run_serverInv hrun hsends
  have hentry : ∀ (i : ℕ) c, s.conns[i]? = some c →
      (s.connections.lookup (s.connName i) = some (some i) ↔ c.state ≠ .kDisconnected) := by
    intro i c hc
    rw [hI.connName hc, hI.table.table, isOpen_iff hc]
    simp
  have hstate : ∀ (i : ℕ) c, s.conns[i]? = some c → c.state ≠ .kDisconnected →
      c.state = .kConnected ∨ c.state = .kDisconnecting :=
    fun i c hc => (hI.steady i c hc).1.open_iff.mp
  refine ⟨fun n i => ?_, hI.nulls, ?_, ?_, ?_, ?_, ?_, ?_, ?_⟩
  · rw [hI.table.table]
    constructor
    · rintro ⟨rfl, c, hc, hopen⟩
      refine ⟨c, hc, ?_, hopen⟩
      simp [hI.table.names, lt_of_getElem? hc]
    · rintro ⟨c, hc, hn, hopen⟩
      rw [hI.table.names] at hn
      simp only [List.getElem?_map, List.getElem?_range (lt_of_getElem? hc), Option.map_some,
        Option.some.injEq] at hn
      exact ⟨hn.symm, c, hc, hopen⟩
  · simp [hI.table.names]
  · rw [hI.table.names]
    exact List.nodup_range.map (nameOf_injective s.name)
  · exact fun i c hc h => hstate i c hc ((hentry i c hc).mp h)
  · intro i c hc hreg
    have hopen := (hI.poll.registered i c hc).mp hreg
    exact ⟨hstate i c hc hopen, (hentry i c hc).mpr hopen,
      fun revents r w hphase hbetween => hI.event_isSome hc hphase hbetween hreg⟩
  · intro i c hc hrefs
    by_contra hopen
    exact refs_ne_zero_of_entry ((hentry i c hc).mpr hopen) hrefs
  · intro hcon i c hc
    rw [hI.notes.current i c hc, told, hset, if_pos hcon]
  · intro hphase i c hc
    by_contra hopen
    exact hI.ended hphase i ((isOpen_iff hc).mpr hopen)

/-- Two connections are accepted; one is written to and closed by its peer, and the other is left to
the destructor. -/
def twoPeers : List Act :=
  [.accept 10, .ret, .accept 11, .ret, .send 0 [1, 2] (.wrote 2), .ret, .peerClose 0,
    .event 0 POLLIN (.got 0) .wouldBlock, .ret, .checkOut .wouldBlock, .destroy, .destroyNext 1,
    .ret, .finish]

theorem connections_exact_twoPeers :
    ∃ s, run step (new "srv" ⟨true, true, true, true⟩ 3 fun _ => none) twoPeers = some s ∧
      s.names = ["srv#0", "srv#1"] ∧
      ∀ (i : ℕ) c, s.conns[i]? = some c → c.state = .kDisconnected ∧
        notesOf s.notes i = [true, false] := by
  have hend : (run step (new "srv" ⟨true, true, true, true⟩ 3 fun _ => none) twoPeers).map
      (fun s => (s.phase, s.names)) = some (.destroyed, ["srv#0", "srv#1"]) := by decide +kernel
  obtain ⟨s, hs, heq⟩ := Option.map_eq_some_iff.mp hend
  obtain ⟨hphase, hnames⟩ := Prod.mk.inj heq
  obtain ⟨-, -, -, -, -, -, -, hnotes, hended⟩ :=
    connections_exact "srv" ⟨true, true, true, true⟩ 3 (fun _ => none) hs (by decide +kernel)
  refine ⟨s, hs, hnames, fun i c hc => ⟨hended hphase i c hc, ?_⟩⟩
  rw [hnotes rfl i c hc, if_pos (hended hphase i c hc)]

end TcpServer

end Polly
