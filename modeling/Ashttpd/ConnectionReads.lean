import Ashttpd.Answers
import Ashttpd.Pipelining

/-!
# Read callbacks from state to state

A read callback scans what has been received of a request, answers the request when it is complete, or
kills the connection. The scanner is never entered behind the end of a head, and the decoder never
finds a head that is longer than what it is given.
-/
namespace Ashttpd

variable {s : Server} {h h' : HttpConn} {fio : Fio} {r : HttpRequest} {o : ReadResults}

theorem exists_rstate {st : Rstate} (hst : st.terminal = false) (c : UInt8) :
    ∃ st', (if c = CR then crMap st else lfMap st) = some st' := by
  split
  · cases st <;> first | exact ⟨_, rfl⟩ | cases hst
  · cases st <;> first | exact ⟨_, rfl⟩ | cases hst

/-- The scanner does not fail before the end of a head, and unless it finds that, it can go on. -/
theorem httpParseIncremental_ends {st : Rstate} (hst : st.terminal = false) (bs : Bytes) :
    Ends NoFault (fun p => p.1 = false → p.2.1.terminal = false) (httpParseIncremental st bs) := by
  induction bs generalizing st with
  | nil => exact fun _ => hst
  | cons c cs ih =>
    unfold httpParseIncremental
    split
    · obtain ⟨st', hst'⟩ := exists_rstate hst c
      rw [hst']
      dsimp only
      split
      · intro hgo
        cases hgo
      · next hgo => exact ends_map (ih (by simpa using hgo)) fun _ => id
    · exact ends_map (ih rfl) fun _ => id

section Decoding

variable {σ : Type} {d : List (HttpHcb σ)} {p : Bytes}

/-- A round of the decoder finds no more than it has seen. -/
theorem decodeStep_ret {cur : ℕ} {c : UInt8} {st : Decode σ} (hret : st.ret ≤ cur) :
    (decodeStep d p cur c st).1.ret ≤ cur + 1 := by
  unfold decodeStep
  cases st.state with
  | state0 | state2 | state3 | state4 =>
    dsimp only
    repeat' split
    all_goals
      dsimp only
      omega
  | state1 =>
    dsimp only
    repeat' split
    all_goals
      dsimp only
      omega

theorem decodeLoop_ret {cur : ℕ} {cs : Bytes} {st : Decode σ} (hret : st.ret ≤ cur) :
    (decodeLoop d p cur cs st).1.ret ≤ cur + cs.length := by
  induction cs generalizing cur st with
  | nil => exact hret
  | cons c cs ih =>
    have hstep := decodeStep_ret (d := d) (p := p) (c := c) hret
    unfold decodeLoop
    rw [List.length_cons]
    split
    · next st' hst' =>
      rw [hst'] at hstep
      have hle : st'.ret ≤ cur + 1 := hstep
      show st'.ret ≤ _
      omega
    · next st' hst' =>
      rw [hst'] at hstep
      have hle : (decodeLoop d p (cur + 1) cs st').1.ret ≤ cur + 1 + cs.length := ih hstep
      omega

end Decoding

theorem httpReq_fst_le (p : Bytes) : (httpReq {} p).1 ≤ p.length := by
  have hloop : (decodeLoop reqHcb p 0 p (Decode.init .empty)).1.ret ≤ 0 + p.length :=
    decodeLoop_ret (Nat.le_refl 0)
  rw [httpReq_fst, httpDecodeBuf, decodeFinish]
  split
  · exact Nat.zero_le _
  · omega

/-- The request that is complete when a callback has received what there is. -/
def HttpConn.requestRead (h : HttpConn) (o : ReadResults) : HttpRequest :=
  match o.recv with
  | .bytes bs => HttpConn.defaultHost (httpReq {} (h.unread ++ bs.take h.room)).2 o.sockname
  | .eagain | .error => {}

/-- What the scanner is given when a callback has received bytes. -/
def HttpConn.scanned (h : HttpConn) (bs : Bytes) : Rstate × Bytes :=
  match h.hReq with
  | none => (.initial, bs.take HTTP_MAX_RESP)
  | some req =>
    let bs := bs.take req.bufWrite
    (h.hRstate, (req.put bs).block.slice h.hRptr (req.bWrite + bs.length - h.hRptr))

/-- A callback completes a request that wants a body. -/
structure PreparesBody (s : Server) (h : HttpConn) (o : ReadResults) : Prop extends WantsBody s (h.requestRead o) o where
  reqBlock : h.hReq = none → o.reqBlock ≠ none
  complete : ∃ bs, o.recv = .bytes bs ∧ bs.take h.room ≠ [] ∧
    (∃ st n, httpParseIncremental (h.scanned bs).1 (h.scanned bs).2 = .ok (true, st, n)) ∧
    (httpReq {} (h.unread ++ bs.take h.room)).1 ≠ 0
  block : o.resBlock ≠ none
  noBody : (h.requestRead o).contentLen = 0

def ReadFault (s : Server) (h : HttpConn) (o : ReadResults) (f : Fault) : Prop :=
  s.fio = .async ∧ PreparesBody s h o ∨ AnswerFault s (h.requestRead o) o f

theorem bufDoneWrite_block {b b' : HttpBuf} {n : ℕ} (hok : b.bufDoneWrite n = .ok b') : b'.block = b.block := by
  unfold HttpBuf.bufDoneWrite at hok
  split at hok
  · cases hok
    rfl
  · cases hok

theorem unread_fresh {block : Mem} (hreq : h.hReq = none) :
    (h.withReq (some (.alloc block HTTP_MAX_RESP)) .initial 0).unread = h.unread ∧
      (h.withReq (some (.alloc block HTTP_MAX_RESP)) .initial 0).room = h.room := by
  unfold HttpConn.unread HttpConn.room
  rw [hreq]
  exact ⟨HttpBuf.unread_alloc block _, HttpBuf.bufWrite_alloc block _⟩

theorem requestRead_fresh {block : Mem} (hreq : h.hReq = none) :
    (h.withReq (some (.alloc block HTTP_MAX_RESP)) .initial 0).requestRead o = h.requestRead o := by
  have hfresh : (h.withReq (some (.alloc block HTTP_MAX_RESP)) .initial 0).unread = h.unread ∧ _ := unread_fresh hreq
  unfold HttpConn.requestRead
  rw [hfresh.1, hfresh.2]

theorem scanned_fresh {block : Mem} (hreq : h.hReq = none) (bs : Bytes) :
    (h.withReq (some (.alloc block HTTP_MAX_RESP)) .initial 0).scanned bs = h.scanned bs := by
  unfold HttpConn.scanned
  rw [hreq, HttpConn.withReq_hReq]
  dsimp only
  rw [HttpBuf.bufWrite_alloc]
  refine congrArg (Prod.mk Rstate.initial) ?_
  show (block.store 0 (bs.take HTTP_MAX_RESP)).slice 0 (0 + (bs.take HTTP_MAX_RESP).length - 0) = _
  rw [Nat.zero_add, Nat.sub_zero, Mem.slice_store_same]

theorem preparesBody_fresh {block : Mem} (hreq : h.hReq = none) (hblock : o.reqBlock ≠ none) :
    PreparesBody s (h.withReq (some (.alloc block HTTP_MAX_RESP)) .initial 0) o ↔ PreparesBody s h o := by
  constructor
  · rintro ⟨hwants, -, ⟨bs, hrecv, hsome, hscan, hhead⟩, hres, hbody⟩
    rw [requestRead_fresh hreq] at hwants hbody
    rw [scanned_fresh hreq] at hscan
    rw [(unread_fresh hreq).1, (unread_fresh hreq).2] at hhead
    rw [(unread_fresh hreq).2] at hsome
    exact ⟨hwants, fun _ => hblock, ⟨bs, hrecv, hsome, hscan, hhead⟩, hres, hbody⟩
  · rintro ⟨hwants, -, ⟨bs, hrecv, hsome, hscan, hhead⟩, hres, hbody⟩
    rw [← requestRead_fresh hreq] at hwants hbody
    rw [← scanned_fresh hreq] at hscan
    rw [← (unread_fresh hreq).1, ← (unread_fresh hreq).2] at hhead
    rw [← (unread_fresh hreq).2] at hsome
    exact ⟨hwants, nofun, ⟨bs, hrecv, hsome, hscan, hhead⟩, hres, hbody⟩

/-- What was asked for is dropped, and the connection can scan the rest. -/
theorem finishRequest_ends (hp : h.Poised fio) {req : HttpBuf} (hreq : h.hReq = some req) {hlen : ℕ}
    (hle : hlen ≤ req.bufRead) : Ends NoFault (HttpConn.Standing fio) (h.finishRequest hlen) := by
  obtain ⟨rest, hdone, -⟩ := req.bufDoneRead_spec hle
  have hanswered := hp.logged [.answered (req.unread.take hlen)] rfl
  unfold HttpConn.finishRequest
  rw [hreq]
  simp only [deref, ok_bind]
  rw [hdone, ok_bind]
  split
  · exact ⟨⟨⟨hanswered.unclosed.fd, hanswered.unclosed.closed, hanswered.unclosed.list⟩, hanswered.state, hanswered.mask,
      fun hne => (hanswered.inFlight hne).imp_right fun hi => hi.congr rfl rfl, hanswered.res, hanswered.body,
      hanswered.noBody, hanswered.sendfile⟩, fun _ => Or.inl rfl⟩
  · have hfreed := hanswered.logged [.freed .req] rfl
    exact ⟨⟨⟨hfreed.unclosed.fd, hfreed.unclosed.closed, hfreed.unclosed.list⟩, hfreed.state, hfreed.mask,
      fun hne => (hfreed.inFlight hne).imp_right fun hi => hi.congr rfl rfl, hfreed.res, hfreed.body,
      hfreed.noBody, hfreed.sendfile⟩, fun hne => absurd rfl hne⟩

theorem HttpConn.Answering.withClose (ha : h.Answering) (close : ℕ) : (h.withClose close).Answering :=
  ⟨⟨ha.unclosed.fd, ha.unclosed.closed, ha.unclosed.list⟩, ha.state, ha.mask, ha.idle, ha.res, ha.priv⟩

theorem handleParsed_ends (ha : h.Answering) {req : HttpBuf} (hreq : h.hReq = some req) {hlen : ℕ}
    (hle : hlen ≤ req.bufRead) :
    Ends (MayFault s (HttpConn.defaultHost r o.sockname) o (hlen ≠ 0 ∧ r.contentLen = 0)) (HttpConn.Settled s.fio)
      (h.handleParsed s hlen r o) := by
  unfold HttpConn.handleParsed
  split
  · have htext : Ends NoFault (fun h' => Texted s.fio h' ∧ Doomed h') h.response400 :=
      respondClose_ends ha resp400_fits
    refine htext.mono (fun _ hno => hno.elim) ?_
    rintro h' ⟨ht, hd⟩
    exact Or.inl ⟨ht.toPoised, fun _ => Or.inr hd⟩
  · split
    · have hkill := httpKill_ends ha.unclosed (ha.killable s.fio)
      exact hkill.mono (fun _ hno => hno.elim) fun _ => Or.inr
    · next hpos hbody =>
      have hclose : r.connClose = (HttpConn.defaultHost r o.sockname).connClose := by simp
      have hanswer := answer_ends (s := s) (o := o) (ha.withClose r.connClose.toNat)
        (congrArg UInt8.toNat hclose)
      have hreached : hlen ≠ 0 ∧ r.contentLen = 0 := ⟨hpos, not_not.mp hbody⟩
      refine ends_bind (hanswer.mono (fun _ hfault => hfault.imp fun _ => hreached) fun _ => id).with_result ?_
      rintro h' ⟨hp, hok⟩
      have hreq' : h'.hReq = some req := (answer_same hok).req.trans hreq
      exact (finishRequest_ends hp hreq' hle).mono (fun _ hno => hno.elim) fun _ => Or.inl

theorem handleRequest_ends (hp : h.Poised s.fio) (hidle : h.aio = none) (hstate : h.hState = .request)
    {req : HttpBuf} (hreq : h.hReq = some req) :
    Ends (MayFault s (HttpConn.defaultHost (httpReq {} req.unread).2 o.sockname) o
        (o.resBlock ≠ none ∧ (httpReq {} req.unread).1 ≠ 0 ∧ (httpReq {} req.unread).2.contentLen = 0))
      (HttpConn.Settled s.fio) (h.handleRequest s o) := by
  unfold HttpConn.handleRequest
  rw [if_neg (by simp [hstate])]
  cases hblock : o.resBlock with
  | none =>
    have hkill := httpKill_ends (h := h.withRes none) ⟨hp.unclosed.fd, hp.unclosed.closed, hp.unclosed.list⟩
      ⟨hidle, hp.state, fun _ => rfl, (hp.killable hidle).priv⟩
    exact hkill.mono (fun _ hno => hno.elim) fun _ => Or.inr
  | some block =>
    dsimp only
    rw [HttpConn.nbioSetWait_eq (h := (h.withRes (some (.alloc block HTTP_MAX_REQ))).withState .header) hp.mask_ne,
      ok_bind]
    obtain ⟨g, hg⟩ : ∃ g, g = ((h.withRes (some (.alloc block HTTP_MAX_REQ))).withState .header).withNbio
      (HttpConn.waiting h.hNbio NBIO_WRITE) := ⟨_, rfl⟩
    have hga : g.Answering := by
      rw [hg]
      exact ⟨⟨hp.unclosed.fd, hp.unclosed.closed, waiting_list _ _⟩, rfl, rfl, hidle, ⟨_, rfl, HttpBuf.bufWrite_alloc block _⟩,
        hp.noBody (Or.inl hstate)⟩
    have hgreq : g.hReq = some req := by
      rw [hg]
      exact hreq
    have hle := httpReq_fst_le req.unread
    rw [req.unread_length] at hle
    rw [show ((h.withRes (some (.alloc block HTTP_MAX_REQ))).withState .header).hNbio = h.hNbio from rfl, ← hg, hgreq]
    exact (handleParsed_ends hga hgreq hle).mono (fun _ hfault => hfault.imp (.intro (Option.some_ne_none block))) fun _ => id

theorem received_ends (hs : h.Standing s.fio) (hidle : h.aio = none) (hstate : h.hState = .request)
    (hscan : h.hRstate.terminal = false) (req : HttpBuf) :
    Ends (MayFault s (HttpConn.defaultHost (httpReq {} req.unread).2 o.sockname) o
        ((∃ st n, httpParseIncremental h.hRstate (req.block.slice h.hRptr (req.bWrite - h.hRptr)) = .ok (true, st, n)) ∧
          o.resBlock ≠ none ∧ (httpReq {} req.unread).1 ≠ 0 ∧ (httpReq {} req.unread).2.contentLen = 0))
      (HttpConn.Settled s.fio) (h.received s req o) := by
  unfold HttpConn.received
  refine ends_bind ((httpParseIncremental_ends hscan _).with_result.mono (fun _ hno => hno.elim) fun _ => id) ?_
  rintro ⟨complete, st, n⟩ ⟨hgo, hparse⟩
  have hp : (h.withReq (some req) st (h.hRptr + n)).Poised s.fio :=
    ⟨⟨hs.unclosed.fd, hs.unclosed.closed, hs.unclosed.list⟩, hs.state, hs.mask,
      fun hne => (hs.inFlight hne).imp_right fun hi => hi.congr rfl rfl, hs.res, hs.body, hs.noBody, hs.sendfile⟩
  dsimp only
  split
  · next hcomplete =>
    rw [hcomplete] at hparse
    exact (handleRequest_ends hp hidle hstate rfl).mono (fun _ hfault => hfault.imp (.intro ⟨st, n, hparse⟩)) fun _ => id
  · next hmore => exact Or.inl ⟨hp, fun _ => Or.inl (hgo (by simpa using hmore))⟩

theorem received_scanned {req req' : HttpBuf} {bs : Bytes} (hreq : h.hReq = some req)
    (hdone : (req.put (bs.take req.bufWrite)).bufDoneWrite (bs.take req.bufWrite).length = .ok req') :
    h.unread ++ bs.take h.room = req'.unread ∧
      h.scanned bs = (h.hRstate, req'.block.slice h.hRptr (req'.bWrite - h.hRptr)) := by
  have hfit : (bs.take req.bufWrite).length ≤ req.bufWrite := List.length_take_le _ _
  obtain ⟨req'', hdone', hun, -, -, hwrite⟩ := req.bufDoneWrite_spec hfit
  cases hdone.symm.trans hdone'
  constructor
  · unfold HttpConn.unread HttpConn.room
    rw [hreq, hun]
  · unfold HttpConn.scanned
    rw [hreq, bufDoneWrite_block hdone, hwrite]

theorem receive_ends (hs : h.Standing s.fio) (hidle : h.aio = none) (hstate : h.hState = .request)
    {req : HttpBuf} (hreq : h.hReq = some req) :
    Ends (ReadFault s h o) (HttpConn.Settled s.fio) (h.receive s req o) := by
  have hkill : Ends (ReadFault s h o) (HttpConn.Settled s.fio) (h.httpKill s.fio) :=
    (hs.kill hidle).mono (fun _ hno => hno.elim) fun _ => Or.inr
  unfold HttpConn.receive
  split
  · exact hkill
  · cases hrecv : o.recv with
    | eagain => exact Or.inl (hs.inactive hidle NBIO_READ)
    | error => exact hkill
    | bytes bs =>
      dsimp only
      split
      · exact hkill
      · next hsome =>
        have hfit : (bs.take req.bufWrite).length ≤ req.bufWrite := List.length_take_le _ _
        obtain ⟨req', hdone, -⟩ := req.bufDoneWrite_spec hfit
        obtain ⟨hunread, hscanned⟩ := received_scanned hreq hdone
        rw [hdone, ok_bind]
        have hread : h.requestRead o = HttpConn.defaultHost (httpReq {} req'.unread).2 o.sockname := by
          unfold HttpConn.requestRead
          rw [hrecv]
          dsimp only
          rw [hunread]
        have hscan : h.hRstate.terminal = false := by
          refine (hs.scan (by simp [hreq])).resolve_right fun hd => ?_
          cases hstate.symm.trans hd.1
        have hreceived := received_ends (o := o) (hs.logged [.received (bs.take req.bufWrite)] rfl) hidle hstate hscan req'
        refine hreceived.mono ?_ fun _ => id
        rintro f (⟨⟨hcomplete, hblock, hhead, hbody⟩, hasync, hwants⟩ | hanswer)
        · have hroom : h.room = req.bufWrite := by
            unfold HttpConn.room
            rw [hreq]
          have hsome : bs.take h.room ≠ [] := by
            rw [hroom]
            exact fun hnil => hsome (List.length_eq_zero_iff.mpr hnil)
          rw [← hread] at hwants
          refine Or.inl ⟨hasync, hwants, by simp [hreq], ⟨bs, hrecv, hsome, ?_, by rwa [hunread]⟩, hblock, ?_⟩
          · rw [hscanned]
            exact hcomplete
          · rwa [hread, HttpConn.defaultHost_contentLen]
        · rw [← hread] at hanswer
          exact Or.inr hanswer

/-- A read callback on a connection that waits for a request ends well, unless the answer cannot be put together, or
a read is submitted for its body. -/
theorem httpRead_ends (hs : h.Standing s.fio) (hidle : h.aio = none) (hstate : h.hState = .request)
    (o : ReadResults) : Ends (ReadFault s h o) (HttpConn.Settled s.fio) (h.httpRead s o) := by
  unfold HttpConn.httpRead
  rw [if_neg (by simp [hstate])]
  cases hreq : h.hReq with
  | some req => exact receive_ends hs hidle hstate hreq
  | none =>
    cases hblock : o.reqBlock with
    | none => exact (hs.kill hidle).mono (fun _ hno => hno.elim) fun _ => Or.inr
    | some block =>
      have hfresh : (h.withReq (some (.alloc block HTTP_MAX_RESP)) .initial 0).Standing s.fio :=
        ⟨⟨⟨hs.unclosed.fd, hs.unclosed.closed, hs.unclosed.list⟩, hs.state, hs.mask,
          fun hne => (hs.inFlight hne).imp_right fun hi => hi.congr rfl rfl, hs.res, hs.body, hs.noBody, hs.sendfile⟩,
          fun _ => Or.inl rfl⟩
      refine (receive_ends hfresh hidle hstate rfl).mono ?_ fun _ => id
      rintro f (⟨hasync, hprepares⟩ | hanswer)
      · exact Or.inl ⟨hasync, (preparesBody_fresh hreq (by simp [hblock])).mp hprepares⟩
      · rw [requestRead_fresh hreq] at hanswer
        exact Or.inr hanswer

end Ashttpd
