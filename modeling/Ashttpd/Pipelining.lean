import Ashttpd.BodyRuns
import Ashttpd.HeadAgreement
import Ashttpd.RequestFrame

/-!
# Requests that wait in the buffer

`handle_request` takes one head from the buffer. What is behind it stays there until more bytes are
received, even if it is another complete head. As long as the heads come in one at a time, the requests
answered are those that the bytes received are cut into.
-/
namespace Ashttpd

def HasHead (y : Bytes) : Prop := [LF, LF] <:+: y ∨ [LF, CR, LF] <:+: y

instance (y : Bytes) : Decidable (HasHead y) := inferInstanceAs (Decidable (_ ∨ _))

theorem noHead_iff {y : Bytes} : NoHead [] y ↔ ¬ HasHead y := by
  constructor
  · intro h hhead
    rcases hhead with ⟨x, t, rfl⟩ | ⟨x, t, rfl⟩
    · exact h (x ++ [LF, LF]) (List.prefix_append _ _) (by simp) (Or.inl (List.suffix_append _ _))
    · exact h (x ++ [LF, CR, LF]) (List.prefix_append _ _) (by simp) (Or.inr (List.suffix_append _ _))
  · rintro h z ⟨t, rfl⟩ - hends
    apply h
    rcases hends with ⟨x, hx⟩ | ⟨x, hx⟩
    · exact Or.inl ⟨x, t, by rw [hx]; rfl⟩
    · exact Or.inr ⟨x, t, by rw [hx]; rfl⟩

namespace HttpConn

/-- The bytes that were received and not answered. -/
def unread (h : HttpConn) : Bytes :=
  match h.hReq with
  | none => []
  | some req => req.unread

/-- How many bytes can be received. -/
def room (h : HttpConn) : ℕ :=
  match h.hReq with
  | none => HTTP_MAX_RESP
  | some req => req.bufWrite

/-- When a head is complete, no complete head is received behind it, and the decoder stops at its
end as well. -/
def Paced (h : HttpConn) : Happening → Prop
  | .read o =>
    match o.recv with
    | .bytes bs => ∀ head rest, h.unread ++ bs.take h.room = head ++ rest → Piece EndsHead head →
        EndsAtColonless head ∧ ¬ HasHead rest
    | .eagain | .error => True
  | .ready _ | .write _ | .error | .completion _ => True

/-- The requests answered are those received, and the scanner stands behind what it has seen of the
rest. -/
structure Tidy (h : HttpConn) : Prop where
  cut : cutAll EndsHead (receivedBytes h.log) = (answeredHeads h.log, h.unread)
  noHead : NoHead [] h.unread
  front : ∀ req, h.hReq = some req → req.bRead = 0 ∧ h.hRptr ≤ req.bWrite ∧
    h.hRstate.Tracks (req.block.slice 0 h.hRptr) ∧ h.hRstate.terminal = false

def Orderly (h : HttpConn) : Prop := h.hState = .dead ∨ h.hNbio.fd = true ∧ (Doomed h ∨ h.Tidy)

end HttpConn

variable {s : Server} {h h' : HttpConn}

theorem SameRequest.unread (hs : SameRequest h h') : h'.unread = h.unread := by
  unfold HttpConn.unread
  rw [hs.req]

theorem HttpConn.Tidy.same (ht : h.Tidy) (hs : SameRequest h h') : h'.Tidy := by
  refine ⟨?_, ?_, ?_⟩
  · rw [hs.received, hs.answered, hs.unread]
    exact ht.cut
  · rw [hs.unread]
    exact ht.noHead
  · rw [hs.req, hs.rptr, hs.rstate]
    exact ht.front

theorem HttpConn.Orderly.tended (ho : h.Orderly) (hlive : h.hState ≠ .dead)
    (ht : h.hNbio.fd = true → h'.hState = .dead ∨ SameRequest h h' ∧ (Doomed h → Doomed h')) :
    h'.Orderly := by
  obtain hdead | ⟨hfd, hrest⟩ := ho
  · exact absurd hdead hlive
  · obtain hdead | ⟨hsame, hdoomed⟩ := ht hfd
    · exact Or.inl hdead
    · refine Or.inr ⟨hsame.fd.trans hfd, ?_⟩
      exact hrest.imp hdoomed fun ht => ht.same hsame

theorem HttpConn.Tidy.cut_received (ht : h.Tidy) (bs : Bytes) :
    cutAll EndsHead (receivedBytes h.log ++ bs) =
      cutFrom EndsHead (answeredHeads h.log, []) (h.unread ++ bs) := by
  have hrest : cutFrom EndsHead (answeredHeads h.log, []) h.unread = (answeredHeads h.log, h.unread) :=
    cutFrom_unended ht.noHead
  rw [cutAll_append, ht.cut, cutFrom_append, hrest]

theorem httpReq_fst (p : Bytes) : (httpReq {} p).1 = (httpDecodeBuf reqHcb p .empty).1 := by
  unfold httpReq
  dsimp only
  split
  · next hzero => exact hzero.symm
  · rfl

theorem receivedBytes_append (l l' : List Event) :
    receivedBytes (l ++ l') = receivedBytes l ++ receivedBytes l' :=
  List.flatMap_append

theorem answeredHeads_append (l l' : List Event) :
    answeredHeads (l ++ l') = answeredHeads l ++ answeredHeads l' :=
  List.flatMap_append

/-- One head is taken from the buffer, and what is behind it moves to the front. -/
theorem finishRequest_spec {hlen : ℕ} {req : HttpBuf} (hreq : h.hReq = some req)
    (hok : h.finishRequest hlen = .ok h') :
    h'.hNbio.fd = h.hNbio.fd ∧ receivedBytes h'.log = receivedBytes h.log ∧
      answeredHeads h'.log = answeredHeads h.log ++ [req.unread.take hlen] ∧
      h'.unread = req.unread.drop hlen ∧
      ∀ rest, h'.hReq = some rest → rest.bRead = 0 ∧ h'.hRptr = 0 ∧ h'.hRstate = .initial := by
  unfold HttpConn.finishRequest at hok
  rw [hreq] at hok
  obtain ⟨_, hderef, hok⟩ := bind_eq_ok_iff.mp hok
  cases hderef
  obtain ⟨rest, hdone, hok⟩ := bind_eq_ok_iff.mp hok
  have hrest : rest.unread = req.unread.drop hlen := (HttpBuf.unread_of_bufDoneRead hdone).2
  have hlog : ∀ l : List Event, receivedBytes (l ++ [.answered (req.unread.take hlen)]) = receivedBytes l ∧
      answeredHeads (l ++ [.answered (req.unread.take hlen)]) =
        answeredHeads l ++ [req.unread.take hlen] := by
    intro l
    rw [receivedBytes_append, answeredHeads_append]
    exact ⟨List.append_nil _, rfl⟩
  split at hok
  · cases hok
    refine ⟨rfl, (hlog h.log).1, (hlog h.log).2, ?_, ?_⟩
    · rw [← hrest]
      exact rest.unread_bufReset
    · rintro _ ⟨⟩
      exact ⟨rest.bufReset_spec.2.2.1, rfl, rfl⟩
  · next hempty =>
    cases hok
    have hfreed := sameRequest_free (h.logged [.answered (req.unread.take hlen)]) (some rest) .req
    refine ⟨rfl, hfreed.received.trans (hlog h.log).1, hfreed.answered.trans (hlog h.log).2, ?_, ?_⟩
    · rw [← hrest]
      exact (rest.unread_eq_nil_iff.mpr (not_not.mp hempty)).symm
    · intro _ hnone
      cases hnone

/-- After a head at the front of the buffer is dealt with, it is gone, unless the client is told to go
away. -/
theorem handleRequest_spec {o : ReadResults} {req : HttpBuf} {head rest : Bytes}
    (hfd : h.hNbio.fd = true) (hreq : h.hReq = some req) (hun : req.unread = head ++ rest)
    (hagree : EndsAtColonless head) (hok : h.handleRequest s o = .ok h') :
    h'.hState = .dead ∨ h'.hNbio.fd = true ∧ (Doomed h' ∨
      receivedBytes h'.log = receivedBytes h.log ∧ answeredHeads h'.log = answeredHeads h.log ++ [head] ∧
      h'.unread = rest ∧
      ∀ req, h'.hReq = some req → req.bRead = 0 ∧ h'.hRptr = 0 ∧ h'.hRstate = .initial) := by
  unfold HttpConn.handleRequest at hok
  split at hok
  · cases hok
  · cases hblock : o.resBlock with
    | none =>
      rw [hblock] at hok
      exact Or.inl (httpKill_dead (h := h.withRes none) hfd hok)
    | some block =>
      rw [hblock] at hok
      obtain ⟨h₁, hwait, hok⟩ := bind_eq_ok_iff.mp hok
      obtain ⟨req', hderef, hok⟩ := bind_eq_ok_iff.mp hok
      have hheader : SameRequest h ((h.withRes (some (.alloc block HTTP_MAX_REQ))).withState .header) :=
        ⟨rfl, rfl, rfl, rfl, rfl, rfl⟩
      have hsame := hheader.trans (sameRequest_nbioSetWait hwait)
      have hstate : h₁.hState = .header := by
        unfold HttpConn.nbioSetWait at hwait
        obtain ⟨io, -, rfl⟩ := map_eq_ok_iff.mp hwait
        rfl
      have hreq₁ : h₁.hReq = some req := hsame.req.trans hreq
      rw [hreq₁] at hderef
      cases hderef
      have hfd₁ : h₁.hNbio.fd = true := hsame.fd.trans hfd
      have hlen : (httpReq {} req.unread).1 = 0 ∨ (httpReq {} req.unread).1 = head.length := by
        rw [httpReq_fst, hun]
        exact (hagree.agree rest).1
      dsimp only at hok
      unfold HttpConn.handleParsed at hok
      split at hok
      · obtain ⟨h₂, hrespond, rfl⟩ := map_eq_ok_iff.mp hok
        have hrespond' := respond_same hrespond
        refine Or.inr ⟨hrespond'.fd.trans hfd₁, Or.inl ⟨?_, ?_, Nat.one_ne_zero⟩⟩
        all_goals
          unfold HttpConn.respond at hrespond
          obtain ⟨res, -, hrespond⟩ := bind_eq_ok_iff.mp hrespond
          split at hrespond
          · cases hrespond
          · obtain ⟨res', -, hrespond⟩ := bind_eq_ok_iff.mp hrespond
            cases hrespond
            first | exact hstate | rfl
      · split at hok
        · exact Or.inl (httpKill_dead hfd₁ hok)
        · next hpos _ =>
          obtain ⟨h₂, hanswer, hok⟩ := bind_eq_ok_iff.mp hok
          have hclose : SameRequest h₁ (h₁.withClose (httpReq {} req.unread).2.connClose.toNat) :=
            ⟨rfl, rfl, rfl, rfl, rfl, rfl⟩
          have hsame₂ := (hsame.trans hclose).trans (answer_same hanswer)
          obtain ⟨hfd', hreceived, hanswered, hunread, hfront⟩ :=
            finishRequest_spec (hsame₂.req.trans hreq) hok
          have hhead := hlen.resolve_left hpos
          rw [hhead, hun, List.take_left] at hanswered
          rw [hhead, hun, List.drop_left] at hunread
          refine Or.inr ⟨(hfd'.trans hsame₂.fd).trans hfd, Or.inr ⟨?_, ?_, hunread, hfront⟩⟩
          · exact hreceived.trans hsame₂.received
          · rw [hanswered, hsame₂.answered]

/-- What is received is scanned, and a head that is complete is dealt with. -/
theorem received_orderly {o : ReadResults} {req req' : HttpBuf} {bs : Bytes} (hfd : h.hNbio.fd = true)
    (ht : h.Tidy) (hreq : h.hReq = some req) (hun : req'.unread = req.unread ++ bs) (hfront : req'.bRead = 0)
    (hwrite : req'.bWrite = req.bWrite + bs.length)
    (hpaced : ∀ head rest, req.unread ++ bs = head ++ rest → Piece EndsHead head →
      EndsAtColonless head ∧ ¬ HasHead rest)
    (hok : (h.logged [.received bs]).received s req' o = .ok h') : h'.Orderly := by
  obtain ⟨hzero, hrptr, htracks, hterm⟩ := ht.front req hreq
  have hunread : h.unread = req.unread := by
    unfold HttpConn.unread
    rw [hreq]
  obtain ⟨x, hx⟩ : ∃ x, x = req.block.slice 0 h.hRptr := ⟨_, rfl⟩
  obtain ⟨y, hy⟩ : ∃ y, y = req'.block.slice h.hRptr (req'.bWrite - h.hRptr) := ⟨_, rfl⟩
  rw [← hx] at htracks
  have hold : req.unread = x ++ req.block.slice h.hRptr (req.bWrite - h.hRptr) := by
    rw [hx, HttpBuf.unread, hzero, Nat.sub_zero]
    conv_lhs => rw [← Nat.add_sub_cancel' hrptr, Mem.slice_add, Nat.zero_add]
  have hxy : req.unread ++ bs = x ++ y := by
    have hnew : req'.unread = req'.block.slice 0 h.hRptr ++ y := by
      rw [hy, HttpBuf.unread, hfront, Nat.sub_zero]
      conv_lhs => rw [← Nat.add_sub_cancel' (by omega : h.hRptr ≤ req'.bWrite), Mem.slice_add, Nat.zero_add]
    have hboth := hnew.symm.trans hun
    rw [hold, List.append_assoc] at hboth
    have hlen : (req'.block.slice 0 h.hRptr).length = x.length := by
      rw [hx, Mem.slice_length, Mem.slice_length]
    obtain ⟨hfirst, -⟩ := List.append_inj hboth hlen
    rw [← hun, hnew, hfirst]
  have hxfree : NoHead [] x := by
    intro z hz
    apply ht.noHead
    rw [hunread, hold]
    exact hz.trans (List.prefix_append x _)
  have hlog : receivedBytes (h.log ++ [.received bs]) = receivedBytes h.log ++ bs ∧
      answeredHeads (h.log ++ [.received bs]) = answeredHeads h.log := by
    rw [receivedBytes_append, answeredHeads_append]
    exact ⟨congrArg (receivedBytes h.log ++ ·) (List.append_nil bs), List.append_nil _⟩
  have hcut := ht.cut_received bs
  rw [hunread] at hcut
  unfold HttpConn.received at hok
  obtain ⟨⟨complete, rstate, n⟩, hparse, hok⟩ := bind_eq_ok_iff.mp hok
  have hscan : httpParseIncremental h.hRstate y = .ok (complete, rstate, n) := by
    rw [hy]
    exact hparse
  rcases httpParseIncremental_spec htracks hterm y with
    ⟨st, z, c, rest, hyz, hrun, hno, hend⟩ | ⟨st, hrun, htracks', hterm', hno⟩
  · cases hrun.symm.trans hscan
    have hpiece : Piece EndsHead (x ++ z ++ [c]) := by
      refine piece_of_unended (Unended.append hxfree hno) ?_
      rwa [List.append_assoc]
    have hsplit : req.unread ++ bs = x ++ z ++ [c] ++ rest := by
      rw [hxy, hyz]
      simp
    obtain ⟨hagree, hrest⟩ := hpaced _ _ hsplit hpiece
    have hhandle : ((h.logged [.received bs]).withReq (some req') rstate (h.hRptr + z.length)).handleRequest
        s o = .ok h' := hok
    obtain hdead | ⟨hfd', hdoomed | ⟨hreceived, hanswered, hunread', hfront'⟩⟩ :=
      handleRequest_spec (h := (h.logged [.received bs]).withReq (some req') rstate (h.hRptr + z.length))
        hfd rfl (hun.trans hsplit) hagree hhandle
    · exact Or.inl hdead
    · exact Or.inr ⟨hfd', Or.inl hdoomed⟩
    · refine Or.inr ⟨hfd', Or.inr ⟨?_, ?_, ?_⟩⟩
      · rw [hreceived, hanswered, hunread']
        show cutAll EndsHead (receivedBytes (h.log ++ [.received bs])) =
          (answeredHeads (h.log ++ [.received bs]) ++ [x ++ z ++ [c]], rest)
        rw [hlog.1, hlog.2, hcut, hsplit, cutFrom_append, cutFrom_piece hpiece]
        exact cutFrom_unended (noHead_iff.mpr hrest)
      · rw [hunread']
        exact noHead_iff.mpr hrest
      · intro req₁ hreq₁
        obtain ⟨hread, hptr, hst⟩ := hfront' req₁ hreq₁
        rw [hptr, hst]
        exact ⟨hread, Nat.zero_le _, Rstate.tracks_initial, rfl⟩
  · cases hrun.symm.trans hscan
    cases hok
    refine Or.inr ⟨hfd, Or.inr ⟨?_, ?_, ?_⟩⟩
    · show cutAll EndsHead (receivedBytes (h.log ++ [.received bs])) =
        (answeredHeads (h.log ++ [.received bs]), req'.unread)
      rw [hlog.1, hlog.2, hcut, hun]
      refine cutFrom_unended ?_
      rw [hxy]
      exact Unended.append hxfree hno
    · show NoHead [] req'.unread
      rw [hun, hxy]
      exact Unended.append hxfree hno
    · rintro _ ⟨⟩
      have hlen : h.hRptr + y.length = req'.bWrite := by
        rw [hy, Mem.slice_length]
        omega
      show req'.bRead = 0 ∧ h.hRptr + y.length ≤ req'.bWrite ∧
        rstate.Tracks (req'.block.slice 0 (h.hRptr + y.length)) ∧ rstate.terminal = false
      have hall : req'.block.slice 0 req'.bWrite = x ++ y := by
        rw [← hxy, ← hun, HttpBuf.unread, hfront, Nat.sub_zero]
      rw [hlen, hall]
      exact ⟨hfront, Nat.le_refl _, htracks', hterm'⟩

/-- A read callback, when there is a buffer. -/
theorem receive_orderly {o : ReadResults} {req : HttpBuf} (hfd : h.hNbio.fd = true) (ht : h.Tidy)
    (hreq : h.hReq = some req) (hpaced : h.Paced (.read o)) (hok : h.receive s req o = .ok h') :
    h'.Orderly := by
  unfold HttpConn.receive at hok
  split at hok
  · exact Or.inl (httpKill_dead hfd hok)
  · cases hrecv : o.recv with
    | eagain =>
      rw [hrecv] at hok
      cases hok
      have hsame := sameRequest_withNbio h (HttpConn.nbioInactive_fd h.hNbio NBIO_READ)
      exact Or.inr ⟨hsame.fd.trans hfd, Or.inr (ht.same hsame)⟩
    | error =>
      rw [hrecv] at hok
      exact Or.inl (httpKill_dead hfd hok)
    | bytes bs =>
      rw [hrecv] at hok
      dsimp only at hok
      split at hok
      · exact Or.inl (httpKill_dead hfd hok)
      · obtain ⟨req', hdone, hok⟩ := bind_eq_ok_iff.mp hok
        obtain ⟨req₁, hdone₁, hun, -, hrd, hwr⟩ := req.bufDoneWrite_spec (List.length_take_le req.bufWrite bs)
        cases hdone₁.symm.trans hdone
        refine received_orderly hfd ht hreq hun (hrd.trans (ht.front req hreq).1) hwr ?_ hok
        unfold HttpConn.Paced HttpConn.unread HttpConn.room at hpaced
        dsimp only at hpaced
        rw [hrecv, hreq] at hpaced
        exact hpaced

theorem httpRead_orderly {o : ReadResults} (hfd : h.hNbio.fd = true) (ht : h.Tidy)
    (hpaced : h.Paced (.read o)) (hok : h.httpRead s o = .ok h') : h'.Orderly := by
  unfold HttpConn.httpRead at hok
  split at hok
  · cases hok
  · cases hreq : h.hReq with
    | some req =>
      rw [hreq] at hok
      exact receive_orderly hfd ht hreq hpaced hok
    | none =>
      rw [hreq] at hok
      cases hblock : o.reqBlock with
      | none =>
        rw [hblock] at hok
        exact Or.inl (httpKill_dead hfd hok)
      | some block =>
        rw [hblock] at hok
        have hempty : h.unread = [] := by
          unfold HttpConn.unread
          rw [hreq]
        have ht' : (h.withReq (some (.alloc block HTTP_MAX_RESP)) .initial 0).Tidy := by
          refine ⟨?_, noHead_nil [], ?_⟩
          · have hcut := ht.cut
            rw [hempty] at hcut
            exact hcut
          · rintro _ ⟨⟩
            exact ⟨rfl, Nat.le_refl 0, Rstate.tracks_initial, rfl⟩
        refine receive_orderly (h := h.withReq (some (.alloc block HTTP_MAX_RESP)) .initial 0) hfd ht' rfl ?_
          hok
        unfold HttpConn.Paced HttpConn.unread HttpConn.room at hpaced ⊢
        rw [hreq] at hpaced
        exact hpaced

/-- No read is done for a connection that is dead. -/
theorem handleCompletion_live {r : Webroots} {iocb : Iocb} {result : CompletionResult}
    (hok : h.handleCompletion r iocb result = .ok h') : h.hState ≠ .dead := by
  intro hdead
  have hassert : (h.withAio none).assertResponding = .error .assertion := by
    unfold HttpConn.assertResponding
    exact if_neg (by simp [hdead])
  have habort : (h.withAio none).httpConnAbort .async ≠ .ok h' := by
    unfold HttpConn.httpConnAbort
    rw [hassert]
    intro hok
    cases hok
  cases result with
  | error => exact habort hok
  | read n =>
    unfold HttpConn.handleCompletion HttpConn.httpConnGetPriv at hok
    dsimp only at hok
    split at hok
    · exact habort hok
    · rw [hassert] at hok
      cases hok

/-- Every step keeps a connection in order. -/
theorem step_orderly {e : HttpConn.Happening} (ho : h.Orderly) (hpaced : h.Paced e) (hstep : h.Steps s e h') :
    h'.Orderly := by
  have hwithNbio : ∀ io : Nbio, io.fd = h.hNbio.fd → (h.withNbio io).Orderly := by
    intro io hfd
    refine ho.imp id fun ⟨hopen, hrest⟩ => ⟨hfd.trans hopen, ?_⟩
    exact hrest.imp id fun ht => ht.same (sameRequest_withNbio h hfd)
  unfold HttpConn.Steps HttpConn.step at hstep
  cases e with
  | ready flags =>
    dsimp only at hstep
    split at hstep
    · cases hstep
      exact hwithNbio _ rfl
    · cases hstep
  | error =>
    dsimp only at hstep
    split at hstep
    · cases hstep
      exact hwithNbio _ rfl
    · cases hstep
  | write o =>
    dsimp only at hstep
    split at hstep
    · obtain ⟨h₁, hok, hsome⟩ := map_eq_ok_iff.mp hstep
      cases hsome
      have hlive : h.hState ≠ .dead := by
        intro hdead
        unfold HttpConn.httpWrite HttpConn.httpWriteState at hok
        rw [hdead] at hok
        cases hok
      exact ho.tended hlive fun hfd => httpWrite_tended hfd hok
    · cases hstep
  | read o =>
    dsimp only at hstep
    split at hstep
    · obtain ⟨h₁, hok, hsome⟩ := map_eq_ok_iff.mp hstep
      cases hsome
      have hstate : h.hState = .request := by
        unfold HttpConn.httpRead at hok
        split at hok
        · cases hok
        · next hstate => exact not_not.mp hstate
      obtain hdead | ⟨hfd, hdoomed | ht⟩ := ho
      · cases hstate.symm.trans hdead
      · cases hstate.symm.trans hdoomed.1
      · exact httpRead_orderly hfd ht hpaced hok
    · cases hstep
  | completion result =>
    dsimp only at hstep
    cases haio : h.aio with
    | none =>
      rw [haio] at hstep
      cases hstep
    | some iocb =>
      rw [haio] at hstep
      obtain ⟨h₁, hok, hsome⟩ := map_eq_ok_iff.mp hstep
      cases hsome
      exact ho.tended (handleCompletion_live hok) fun hfd => handleCompletion_tended hfd hok

/-- A connection that waits for a request has no complete head in its buffer, and the requests answered
are those that the bytes received are cut into: in whatever portions they came, if no more than one head
was complete at a time. -/
theorem request_answered {es : List HttpConn.Happening}
    (hrun : GuardedRun (HttpConn.Steps s) HttpConn.Paced .httpConn es h) (hstate : h.hState = .request) :
    ¬ HasHead h.unread ∧ cutAll EndsHead (receivedBytes h.log) = (answeredHeads h.log, h.unread) := by
  have hstart : HttpConn.httpConn.Orderly := by
    refine Or.inr ⟨rfl, Or.inr ⟨rfl, noHead_nil [], ?_⟩⟩
    intro _ hreq
    cases hreq
  have ho : h.Orderly := by
    refine hrun.invariant (I := fun _ h => h.Orderly) ?_ hstart
    intro _ h e h' ho hpaced hstep
    exact step_orderly ho hpaced hstep
  obtain hdead | ⟨-, hdoomed | ht⟩ := ho
  · cases hstate.symm.trans hdead
  · cases hstate.symm.trans hdoomed.1
  · exact ⟨noHead_iff.mp ht.noHead, ht.cut⟩

/-- A read callback for which `recv` ends like this, with memory enough. -/
def readOf (recv : RecvResult) : HttpConn.Happening :=
  .read ⟨recv, some fun _ => 0, some fun _ => 0, some fun _ => 0, .submitted, ascii "127.0.0.1", fun _ => 0, 0⟩

def oneSegment (bs : Bytes) : List HttpConn.Happening :=
  [readOf (.bytes bs), .write ⟨.sent 2048, [], .submitted⟩, readOf .eagain]

def Parked (h : HttpConn) : Prop := h.hState = .request ∧ h.hNbio.list = .inactive ∧ h.hNbio.polled

instance (h : HttpConn) : Decidable (Parked h) := inferInstanceAs (Decidable (_ ∧ _ ∧ _))

theorem plainHead_endsAtColonless : EndsAtColonless plainHead := by
  have hline : RequestWords 0 ([71, 69, 84, SP, 47, SP, 72, 84, 84, 80, 47, 49, 46, 48, CR, LF] : Bytes)
      [[71, 69, 84], [47], [72, 84, 84, 80, 47, 49, 46, 48]] :=
    .more (n := 0) (v := [69, 84]) (by decide) (by decide) (by decide) (by decide)
      (.more (n := 0) (v := []) (by decide) (by decide) (by decide) (by decide)
        (.last (n := 0) (v := [84, 84, 80, 47, 49, 46, 48, CR]) (by decide) (by decide) (by decide)))
  exact ⟨_, _, [], [], [CR], [], rfl, hline, .nil, by decide, by decide, Or.inl rfl⟩

/-- All that is received is one plain head. -/
def OnePlain (h : HttpConn) : HttpConn.Happening → Prop
  | .read o =>
    match o.recv with
    | .bytes bs => h.unread ++ bs.take h.room = plainHead
    | .eagain | .error => True
  | .ready _ | .write _ | .error | .completion _ => True

instance (h : HttpConn) (e : HttpConn.Happening) : Decidable (OnePlain h e) := by
  unfold OnePlain
  split
  · split <;> infer_instance
  all_goals infer_instance

theorem paced_of_onePlain (h : HttpConn) (e : HttpConn.Happening) (hplain : OnePlain h e) : h.Paced e := by
  cases e with
  | ready _ | write _ | error | completion _ => trivial
  | read o =>
    unfold HttpConn.Paced
    unfold OnePlain at hplain
    dsimp only at hplain ⊢
    cases hrecv : o.recv with
    | eagain | error => trivial
    | bytes bs =>
      rw [hrecv] at hplain
      intro head rest hsplit hpiece
      have hfirst : ∀ z ∈ plainHead.inits, EndsHead z → z = plainHead := by decide +kernel
      have hmem : head ∈ plainHead.inits := by
        rw [List.mem_inits, ← hplain, hsplit]
        exact List.prefix_append head rest
      have hhead := hfirst head hmem hpiece.ended
      have hrest : rest = [] := by
        have hlen := congrArg List.length (hsplit.symm.trans hplain)
        rw [List.length_append, hhead] at hlen
        exact List.length_eq_zero_iff.mp (by omega)
      rw [hhead, hrest]
      exact ⟨plainHead_endsAtColonless, by decide⟩

theorem request_answered_plainHead : ∃ h, GuardedRun (HttpConn.Steps (twoByteServer .sync)) HttpConn.Paced
    .httpConn (oneSegment plainHead) h ∧ Parked h ∧ ¬ HasHead h.unread ∧
    cutAll EndsHead (receivedBytes h.log) = (answeredHeads h.log, h.unread) := by
  have hall : (play (HttpConn.next (twoByteServer .sync)) OnePlain .httpConn (oneSegment plainHead)).any
      (fun h => Parked h) = true := by
    decide +kernel
  obtain ⟨h, hplay, hparked⟩ := (Option.any_eq_true _ _).mp hall
  have hparked := of_decide_eq_true hparked
  have hrun := (guardedRun_of_play (fun _ _ _ => HttpConn.steps_of_next) hplay).mono paced_of_onePlain
  exact ⟨h, hrun, hparked, request_answered hrun hparked.1⟩

/-- Of two heads that are received at once only one is answered. -/
theorem parked_with_head : ∃ h, Run (HttpConn.Steps (twoByteServer .sync)) .httpConn
    (oneSegment (plainHead ++ plainHead)) h ∧ Parked h ∧ HasHead h.unread ∧
    answeredHeads h.log = [plainHead] ∧ h.unread = plainHead := by
  have hall : (play (HttpConn.next (twoByteServer .sync)) (fun _ _ => True) .httpConn
      (oneSegment (plainHead ++ plainHead))).any (fun h => Parked h ∧ HasHead h.unread ∧
        answeredHeads h.log = [plainHead] ∧ h.unread = plainHead) = true := by
    decide +kernel
  obtain ⟨h, hplay, hend⟩ := (Option.any_eq_true _ _).mp hall
  exact ⟨h, guardedRun_of_play (fun _ _ _ => HttpConn.steps_of_next) hplay, of_decide_eq_true hend⟩

end Ashttpd
