import Ashttpd.AioCallbacks
import Mathlib.Data.List.InsertIdx

/-!
# Operations in flight over runs of a thread

Every operation in flight belongs to one connection that waits for it, and every such connection has one. Whatever
is completed, and in whatever order, finds its connection as the submission left it.
-/
namespace Ashttpd

variable {s : Server} {h h' : HttpConn} {m : AioModel} {t t' : AioThread} {iocb : Iocb}

namespace AioThread

def owners (t : AioThread) : List ℕ := t.outstanding.map Prod.fst

/-- Connections and operations belong together, but for the connections in `busy`, which a callback is running for. -/
structure Tracks (m : AioModel) (t : AioThread) (busy : Set ℕ) : Prop where
  waits : ∀ i ∈ t.owners, ∃ h, t.peers[i]? = some ⟨h, false⟩ ∧ Waits m h
  rest : ∀ i h, i ∉ t.owners → i ∉ busy → t.peers[i]? = some ⟨h, false⟩ → Unsubmitted m h
  once : t.owners.Nodup
  count : t.inFlight = t.outstanding.length

theorem Tracks.empty (m : AioModel) : empty.Tracks m ∅ :=
  ⟨nofun, fun _ _ _ _ hpeer => (nomatch hpeer), List.nodup_nil, rfl⟩

theorem owners_eraseIdx (l : List (ℕ × Iocb)) (k : ℕ) : (l.eraseIdx k).map Prod.fst = (l.map Prod.fst).eraseIdx k :=
  (List.eraseIdx_map Prod.fst l k).symm

/-- What is completed is not in flight any more, and nothing else is for the same connection. -/
theorem Tracks.completed {i k : ℕ} (ht : t.Tracks m ∅) (hop : t.outstanding[k]? = some (i, iocb)) :
    (t.completed k).Tracks m {i} ∧ i ∉ (t.completed k).owners := by
  have howner : t.owners[k]? = some i := by
    unfold owners
    rw [List.getElem?_map, hop]
    rfl
  have howners : (t.completed k).owners = t.owners.eraseIdx k := owners_eraseIdx t.outstanding k
  have hlt : k < t.outstanding.length := (List.getElem?_eq_some_iff.mp hop).1
  have hout : i ∉ (t.completed k).owners := by
    rw [howners]
    intro hmem
    obtain ⟨j, hne, hj⟩ := List.mem_eraseIdx_iff_getElem?.mp hmem
    exact hne ((List.getElem?_inj (List.getElem?_eq_some_iff.mp hj).1 ht.once).mp (hj.trans howner.symm))
  have hstill : ∀ j ∈ t.owners, j ≠ i → j ∈ (t.completed k).owners := by
    intro j hj hne
    rw [howners, List.mem_eraseIdx_iff_getElem?]
    obtain ⟨n, hn⟩ := List.mem_iff_getElem?.mp hj
    refine ⟨n, ?_, hn⟩
    rintro rfl
    exact hne (Option.some.inj (hn.symm.trans howner))
  refine ⟨⟨?_, ?_, ?_, ?_⟩, hout⟩
  · intro j hj
    rw [howners] at hj
    exact ht.waits j (List.mem_of_mem_eraseIdx hj)
  · intro j h hj hbusy hpeer
    exact ht.rest j h (fun hmem => hj (hstill j hmem hbusy)) (Set.notMem_empty j) hpeer
  · rw [howners]
    exact ht.once.eraseIdx k
  · show t.inFlight - 1 = (t.outstanding.eraseIdx k).length
    rw [ht.count, List.length_eraseIdx_of_lt hlt]

/-- A callback that lands leaves everything tracked again. -/
theorem Tracks.returned {i : ℕ} {q : Peer} (ht : t.Tracks m {i}) (hout : i ∉ t.owners) (hpeer : t.peers[i]? = some q)
    (hlands : Lands m h') : (t.returned i h').Tracks m ∅ := by
  have hlt : i < t.peers.length := (List.getElem?_eq_some_iff.mp hpeer).1
  have hsame : ∀ {j : ℕ} {p : Peer}, j ≠ i → (t.peers.set i p)[j]? = t.peers[j]? := fun hne =>
    List.getElem?_set_ne fun he => hne he.symm
  have hown : ∀ {p : Peer}, (t.peers.set i p)[i]? = some p := List.getElem?_set_self hlt
  unfold AioThread.returned
  obtain hrest | ⟨iocb, haio, hwaits⟩ := hlands
  · rw [hrest.1]
    refine ⟨?_, ?_, ht.once, ht.count⟩
    · intro j hj
      obtain ⟨h, hh, hw⟩ := ht.waits j hj
      have hne : j ≠ i := fun he => hout (he ▸ hj)
      exact ⟨h, (hsame hne).trans hh, hw⟩
    · intro j h hj _ hh
      by_cases he : j = i
      · subst he
        cases hown.symm.trans hh
        exact hrest
      · exact ht.rest j h hj he ((hsame he).symm.trans hh)
  · rw [haio]
    have howners : ∀ {j}, j ∈ (t.outstanding ++ [(i, iocb)]).map Prod.fst ↔ j ∈ t.owners ∨ j = i := by
      intro j
      rw [List.map_append, List.mem_append]
      exact or_congr_right List.mem_singleton
    refine ⟨?_, ?_, ?_, ?_⟩
    · intro j hj
      obtain hj | rfl := howners.mp hj
      · obtain ⟨h, hh, hw⟩ := ht.waits j hj
        have hne : j ≠ i := fun he => hout (he ▸ hj)
        exact ⟨h, (hsame hne).trans hh, hw⟩
      · exact ⟨_, hown, hwaits⟩
    · intro j h hj _ hh
      have hj : ¬ (j ∈ t.owners ∨ j = i) := fun hmem => hj (howners.mpr hmem)
      exact ht.rest j h (fun hmem => hj (Or.inl hmem)) (fun he => hj (Or.inr he))
        ((hsame fun he => hj (Or.inr he)).symm.trans hh)
    · show ((t.outstanding ++ [(i, iocb)]).map Prod.fst).Nodup
      rw [List.map_append]
      exact List.Nodup.append ht.once (List.nodup_singleton i) (List.disjoint_singleton.mpr hout)
    · show t.inFlight + 1 = (t.outstanding ++ [(i, iocb)]).length
      rw [ht.count, List.length_append]
      rfl

theorem Tracks.mono {busy : Set ℕ} (ht : t.Tracks m ∅) : t.Tracks m busy :=
  ⟨ht.waits, fun i h hi _ => ht.rest i h hi (Set.notMem_empty i), ht.once, ht.count⟩

theorem presumed_standing {fio : Fio} (hs : h.Standing fio) (root : Option ℕ) (e : HttpConn.Happening) :
    (h.presumed root e).Standing fio := by
  cases e with
  | read o =>
    cases root with
    | none => exact hs
    | some w =>
      exact ⟨⟨⟨hs.unclosed.fd, hs.unclosed.closed, hs.unclosed.list⟩, hs.state, hs.mask,
        fun hne => (hs.inFlight hne).imp_right fun hi => hi.congr rfl rfl, hs.res,
        fun hbody => ⟨Option.some_ne_none w, (hs.body hbody).2⟩, hs.noBody, hs.sendfile⟩, hs.scan⟩
  | ready _ | write _ | error | completion _ => exact hs

theorem presumed_keeps (h : HttpConn) (root : Option ℕ) (e : HttpConn.Happening) :
    (h.presumed root e).aio = h.aio ∧ (h.presumed root e).hNbio = h.hNbio ∧
      (h.presumed root e).hState = h.hState := by
  cases e with
  | read o =>
    cases root with
    | none => exact ⟨rfl, rfl, rfl⟩
    | some w => exact ⟨rfl, rfl, rfl⟩
  | ready _ | write _ | error | completion _ => exact ⟨rfl, rfl, rfl⟩

theorem callback_deleted (hlist : h.hNbio.list = .deleted) (hidle : h.aio = none) (e : HttpConn.Happening) :
    m.callback s h e = .ok none := by
  unfold AioModel.callback
  cases e with
  | ready _ | read _ | error => exact step_of_deleted hlist hidle _
  | completion _ => rfl
  | write o =>
    refine if_neg ?_
    rintro ⟨hactive, -⟩
    cases hlist.symm.trans hactive

/-- A callback is only ever run for a connection that nothing is in flight for. -/
theorem Tracks.callback {i : ℕ} (ht : t.Tracks m ∅) (hpeer : t.peers[i]? = some ⟨h, false⟩) {root : Option ℕ}
    {e : HttpConn.Happening} (hok : m.callback s (h.presumed root e) e = .ok (some h')) :
    i ∉ t.owners ∧ Lands m h' := by
  obtain ⟨haio, hnbio, hstate⟩ := presumed_keeps h root e
  have hout : i ∉ t.owners := by
    intro hmem
    obtain ⟨h₁, hh₁, hw⟩ := ht.waits i hmem
    cases hpeer.symm.trans hh₁
    rw [HttpConn.InFlight.unreached (hw.inFlight.congr hstate hnbio) e] at hok
    cases hok
  obtain ⟨hidle, hs | hlist⟩ := ht.rest i h hout (Set.notMem_empty i) hpeer
  · exact ⟨hout, callback_lands (presumed_standing hs root e) (haio.trans hidle) hok⟩
  · rw [callback_deleted (by rw [hnbio, hlist]) (haio.trans hidle) e] at hok
    cases hok

/-- Every step keeps connections and operations together. -/
theorem Tracks.step (ht : t.Tracks m ∅) {ev : Server × AioEvent} (hstep : t.Steps m ev t') : t'.Tracks m ∅ := by
  obtain ⟨s, ev⟩ := ev
  unfold Steps AioThread.step at hstep
  cases ev with
  | accept =>
    cases hstep
    refine ⟨?_, ?_, ht.once, ht.count⟩
    · intro i hi
      obtain ⟨h, hh, hw⟩ := ht.waits i hi
      exact ⟨h, List.getElem?_append_left (List.getElem?_eq_some_iff.mp hh).1 ▸ hh, hw⟩
    · intro i h hi _ hh
      by_cases hlt : i < t.peers.length
      · exact ht.rest i h hi (Set.notMem_empty i) (List.getElem?_append_left hlt ▸ hh)
      · rw [List.getElem?_append_right (by omega)] at hh
        have hnew : h = .httpConn := by
          have hmem := List.mem_of_getElem? hh
          rw [List.mem_singleton] at hmem
          exact congrArg Peer.conn hmem
        rw [hnew]
        exact ⟨rfl, Or.inl (httpConn_standing m.fio)⟩
  | conn i root e =>
    dsimp only at hstep
    split at hstep
    · cases hstep
    · cases hstep
    · next h hpeer =>
      obtain ⟨o, hok, ho⟩ := map_eq_ok_iff.mp hstep
      obtain ⟨h', rfl, rfl⟩ := Option.map_eq_some_iff.mp ho
      obtain ⟨hout, hlands⟩ := ht.callback hpeer hok
      exact ht.mono.returned hout hpeer hlands
  | completion k result submit =>
    dsimp only at hstep
    split at hstep
    · cases hstep
    · next i iocb hop =>
      split at hstep
      · cases hstep
      · have hmem : i ∈ t.owners := List.mem_map.mpr ⟨(i, iocb), List.mem_of_getElem? hop, rfl⟩
        obtain ⟨h, hpeer, hw⟩ := ht.waits i hmem
        rw [hpeer] at hstep
        obtain ⟨h', hok, heq⟩ := map_eq_ok_iff.mp hstep
        cases heq
        obtain ⟨ht', hout⟩ := ht.completed hop
        exact ht'.returned hout hpeer ((handleCompletion_lands hw result submit).result hok)
  | dtor i =>
    dsimp only at hstep
    split at hstep
    · cases hstep
    · cases hstep
    · next h hpeer =>
      split at hstep
      · next hlist =>
        cases hstep
        have hout : ∀ j ∈ t.owners, j ≠ i := by
          rintro j hj rfl
          obtain ⟨h₁, hh₁, hw⟩ := ht.waits j hj
          cases hpeer.symm.trans hh₁
          cases hlist.symm.trans hw.inFlight.list
        refine ⟨fun j hj => ?_, fun j h₁ hj _ hh => ?_, ht.once, ht.count⟩
        · obtain ⟨h₁, hh₁, hw⟩ := ht.waits j hj
          exact ⟨h₁, (List.getElem?_set_ne fun he => hout j hj he.symm).trans hh₁, hw⟩
        · by_cases he : j = i
          · subst he
            cases (List.getElem?_set_self (List.getElem?_eq_some_iff.mp hpeer).1).symm.trans hh
          · exact ht.rest j h₁ hj (Set.notMem_empty j) ((List.getElem?_set_ne fun hi => he hi.symm).symm.trans hh)
      · cases hstep

/-- A connection that an operation is in flight for was not killed, waits for nothing on a list that leads to no
callback, and has what its completion needs. -/
structure Suspends (m : AioModel) (h : HttpConn) : Prop where
  parked : h.hNbio.list = .inactive ∧ h.hNbio.polled = false
  mask : h.hNbio.mask = 0
  alive : h.hNbio.fd = true ∧ h.log.count .closed = 0
  state : h.hState = .header ∨ h.hState = .data
  buffer : m = .file → h.hIoPriv ≠ none
  unreached : ∀ s root e, m.callback s (h.presumed root e) e = .ok none

theorem suspends_of_waits (hw : Waits m h) : Suspends m h := by
  refine ⟨⟨hw.inFlight.list, hw.inFlight.polled⟩, hw.inFlight.mask,
    ⟨hw.woken.unclosed.fd, hw.woken.unclosed.closed⟩, hw.inFlight.responding.symm, ?_, ?_⟩
  · rintro rfl
    exact (hw.woken.body hw.body).2 nofun
  · intro s root e
    obtain ⟨-, hnbio, hstate⟩ := presumed_keeps h root e
    exact HttpConn.InFlight.unreached (hw.inFlight.congr hstate hnbio) e

/-- In every state of every run, with any number of connections and completions in any order, every operation in
flight finds its connection, no connection has two of them, and they are all counted. -/
theorem no_completion_outlives {evs : List (Server × AioEvent)} (hrun : Run (Steps m) empty evs t) :
    (∀ op ∈ t.outstanding, ∃ h, t.peers[op.1]? = some ⟨h, false⟩ ∧ Suspends m h) ∧
      (t.outstanding.map Prod.fst).Nodup ∧ t.inFlight = t.outstanding.length := by
  have ht : t.Tracks m ∅ :=
    hrun.invariant (I := fun _ t => t.Tracks m ∅) (fun _ _ _ _ ht _ hstep => ht.step hstep) (.empty m)
  refine ⟨fun op hop => ?_, ht.once, ht.count⟩
  obtain ⟨h, hh, hw⟩ := ht.waits op.1 (List.mem_map_of_mem hop)
  exact ⟨h, hh, suspends_of_waits hw⟩

/-- What a step leads to, if it is possible. -/
def next (m : AioModel) (t : AioThread) (ev : Server × AioEvent) : Option AioThread :=
  match t.step m ev.1 ev.2 with
  | .ok o => o
  | .error _ => none

theorem steps_of_next {ev : Server × AioEvent} (hnext : next m t ev = some t') : t.Steps m ev t' := by
  unfold next at hnext
  unfold Steps
  split at hnext
  · next o ho => rw [ho, hnext]
  · cases hnext

/-- Two connections ask for the file of two bytes, and the first of their reads is done. -/
def twoReads : List (Server × AioEvent) :=
  [.accept, .accept, .conn 0 (some 0) (readOf (.bytes plainHead)), .conn 1 (some 0) (readOf (.bytes plainHead)),
    .completion 0 (.done 1) .submitted].map fun ev => (taggedServer, ev)

theorem no_completion_outlives_twoReads : ∃ t, Run (Steps .file) empty twoReads t ∧ t.inFlight = 1 ∧
    ∀ op ∈ t.outstanding, ∃ h, t.peers[op.1]? = some ⟨h, false⟩ ∧ Suspends .file h := by
  have hall : (play (next .file) (fun _ _ => True) empty twoReads).any (fun t => t.inFlight = 1) = true := by
    decide +kernel
  obtain ⟨t, hplay, hcount⟩ := (Option.any_eq_true _ _).mp hall
  have hrun : Run (Steps .file) empty twoReads t := guardedRun_of_play (fun _ _ _ => steps_of_next) hplay
  exact ⟨t, hrun, of_decide_eq_true hcount, (no_completion_outlives hrun).1⟩

end AioThread
end Ashttpd
