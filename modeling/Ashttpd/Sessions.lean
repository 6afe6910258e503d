import Ashttpd.ConnectionRuns
import Ashttpd.Pipelining
import Ashttpd.Teardown
import Ashttpd.WebrootUse
import Ashttpd.WireRuns

/-!
# Sessions

On a connection that is kept open, one request after the other is answered. Whatever the kernel makes of the
calls and however requests come in portions, the bytes on the wire are the responses to the requests in their
order, each of them complete before the next one begins. This is so on every connection of a thread, in
any order of what happens on them.
-/
namespace Ashttpd

variable {s : Server} {h h' g h₁ : HttpConn} {o : ReadResults} {head wire : Bytes} {done : List (Bytes × Bytes)}
  {X : Bytes → Bytes → Prop} {Ready : HttpConn → ReadResults → Bytes → Prop}

/-- A connection that has received a request, and memory for the answer. -/
structure Arrived (g : HttpConn) (o : ReadResults) (head : Bytes) : Prop where
  state : g.hState = .request
  fd : g.hNbio.fd = true
  mask : g.hNbio.mask ≠ NBIO_DELETED
  idle : g.aio = none
  block : o.resBlock ≠ none
  buffer : ∃ req rest, g.hReq = some req ∧ req.unread = head ++ rest

/-- A response is queued, nothing of it was sent, and the connection is to stay. -/
structure Begins (s : Server) (g h₁ : HttpConn) (wire : Bytes) : Prop where
  state : h₁.hState = .header
  stays : h₁.hConnClose = 0
  unsent : sentBytes h₁.log = sentBytes g.log
  conveys : Conveys s h₁ wire

/-- Requests and their responses, which a server keeps to as long as it can. -/
structure Contract (s : Server) (X : Bytes → Bytes → Prop) (Ready : HttpConn → ReadResults → Bytes → Prop) : Prop where
  ends : ∀ {head wire}, X head wire → EndsAtColonless head
  ready : ∀ {h g o wire}, g.hWebroot = h.hWebroot → Ready h o wire → Ready g o wire
  begins : ∀ {g o head wire}, X head wire → Ready g o wire → Arrived g o head →
    ∃ h₁, g.handleRequest s o = .ok h₁ ∧ Begins s g h₁ wire

/-- What is received when a head is complete: a request with a response that the server can give, and no
second one behind it. The event loop finds no error. -/
def Polite (X : Bytes → Bytes → Prop) (Ready : HttpConn → ReadResults → Bytes → Prop) (h : HttpConn) :
    HttpConn.Happening → Prop
  | .read o =>
    match o.recv with
    | .bytes bs => ∀ head rest, h.unread ++ bs.take h.room = head ++ rest → Piece EndsHead head →
        (∃ wire, X head wire ∧ Ready h o wire) ∧ ¬ HasHead rest
    | .eagain | .error => True
  | .error => False
  | .ready _ | .write _ | .completion _ => True

theorem Polite.paced (hc : Contract s X Ready) {e : HttpConn.Happening} (hp : Polite X Ready h e) : h.Paced e := by
  cases e with
  | ready | write | error | completion => trivial
  | read o =>
    unfold Polite at hp
    unfold HttpConn.Paced
    dsimp only at hp ⊢
    split
    · next bs hrecv =>
      rw [hrecv] at hp
      intro head rest hsplit hpiece
      obtain ⟨⟨wire, hx, -⟩, hrest⟩ := hp head rest hsplit hpiece
      exact ⟨hc.ends hx, hrest⟩
    · trivial
    · trivial

theorem Polite.ne_error {e : HttpConn.Happening} (hp : Polite X Ready h e) : e ≠ .error := by
  rintro rfl
  exact hp

/-- The connection is what it was before, but for the bytes received and the buffer with them. -/
structure TakesIn (h : HttpConn) (bs : Bytes) (g : HttpConn) : Prop where
  log : g.log = h.log ++ [.received bs]
  state : g.hState = h.hState
  nbio : g.hNbio = h.hNbio
  aio : g.aio = h.aio
  webroot : g.hWebroot = h.hWebroot
  res : g.hRes = h.hRes

def Kills (s : Server) (h : HttpConn) (x : Except Fault HttpConn) : Prop :=
  ∃ g : HttpConn, g.log = h.log ∧ g.hState = h.hState ∧ g.hNbio = h.hNbio ∧ g.hRes = h.hRes ∧ x = g.httpKill s.fio

/-- No head is complete. -/
def Idles (h : HttpConn) (x : Except Fault HttpConn) : Prop :=
  ∃ h', x = .ok h' ∧ h'.hState = h.hState ∧ sentBytes h'.log = sentBytes h.log ∧
    answeredHeads h'.log = answeredHeads h.log

/-- The first head is complete and dealt with. -/
def Deals (s : Server) (o : ReadResults) (h : HttpConn) (x : Except Fault HttpConn) : Prop :=
  ∃ bs head rest g req, o.recv = .bytes bs ∧ h.unread ++ bs.take h.room = head ++ rest ∧ Piece EndsHead head ∧
    TakesIn h (bs.take h.room) g ∧ g.hReq = some req ∧ req.unread = head ++ rest ∧ x = g.handleRequest s o

/-- The bytes that were scanned already stand in front of those that are scanned now. -/
theorem received_cases {req req' : HttpBuf} {bs : Bytes} (ht : h.Tidy) (hreq : h.hReq = some req)
    (hun : req'.unread = req.unread ++ bs) (hfront : req'.bRead = 0) (hwrite : req'.bWrite = req.bWrite + bs.length) :
    Idles h ((h.logged [.received bs]).received s req' o) ∨
    ∃ head rest g, req.unread ++ bs = head ++ rest ∧ Piece EndsHead head ∧ TakesIn h bs g ∧ g.hReq = some req' ∧
      req'.unread = head ++ rest ∧ (h.logged [.received bs]).received s req' o = g.handleRequest s o := by
  obtain ⟨hzero, hrptr, htracks, hterm⟩ := ht.front req hreq
  obtain ⟨x, hx⟩ : ∃ x, x = req.block.slice 0 h.hRptr := ⟨_, rfl⟩
  obtain ⟨y, hy⟩ : ∃ y, y = req'.block.slice h.hRptr (req'.bWrite - h.hRptr) := ⟨_, rfl⟩
  rw [← hx] at htracks
  have hold : req.unread = x ++ req.block.slice h.hRptr (req.bWrite - h.hRptr) := by
    rw [hx, HttpBuf.unread, hzero, Nat.sub_zero]
    conv_lhs => rw [← Nat.add_sub_cancel' hrptr, Mem.slice_add, Nat.zero_add]
  have hxy : req.unread ++ bs = x ++ y := by
    have hnew : req'.unread = req'.block.slice 0 h.hRptr ++ y := by
      rw [hy, HttpBuf.unread, hfront, Nat.sub_zero]
      conv_lhs => rw [← Nat.add_sub_cancel' (by omega : h.hRptr ≤ req'.bWrite), Mem.slice_add, Nat.zero_add]
    have hboth := hnew.symm.trans hun
    rw [hold, List.append_assoc] at hboth
    obtain ⟨hfirst, -⟩ := List.append_inj hboth (by rw [hx, Mem.slice_length, Mem.slice_length])
    rw [← hun, hnew, hfirst]
  have hxfree : NoHead [] x := by
    intro z hz
    apply ht.noHead
    rw [HttpConn.unread, hreq]
    dsimp only
    rw [hold]
    exact hz.trans (List.prefix_append x _)
  have hcall : ∀ {complete rstate n}, httpParseIncremental h.hRstate y = .ok (complete, rstate, n) →
      (h.logged [.received bs]).received s req' o =
        if complete then
          ((h.logged [.received bs]).withReq (some req') rstate (h.hRptr + n)).handleRequest s o
        else .ok ((h.logged [.received bs]).withReq (some req') rstate (h.hRptr + n)) := by
    intro complete rstate n hscan
    unfold HttpConn.received
    show (httpParseIncremental h.hRstate (req'.block.slice h.hRptr (req'.bWrite - h.hRptr)) >>= _) = _
    rw [← hy, hscan]
    rfl
  obtain ⟨st, z, c, rest, hyz, hrun, hno, hend⟩ | ⟨st, hrun, -⟩ := httpParseIncremental_spec htracks hterm y
  · have hpiece : Piece EndsHead (x ++ z ++ [c]) := by
      refine piece_of_unended (Unended.append hxfree hno) ?_
      rwa [List.append_assoc]
    have hsplit : req.unread ++ bs = x ++ z ++ [c] ++ rest := by
      rw [hxy, hyz]
      simp
    refine Or.inr ⟨_, rest, (h.logged [.received bs]).withReq (some req') st (h.hRptr + z.length), hsplit, hpiece,
      ⟨rfl, rfl, rfl, rfl, rfl, rfl⟩, rfl, hun.trans hsplit, ?_⟩
    rw [hcall hrun, if_pos rfl]
  · refine Or.inl ⟨_, (hcall hrun).trans (if_neg Bool.false_ne_true), rfl, ?_, ?_⟩
    · show sentBytes (h.log ++ [.received bs]) = sentBytes h.log
      rw [sentBytes_append]
      exact List.append_nil _
    · show answeredHeads (h.log ++ [.received bs]) = answeredHeads h.log
      rw [answeredHeads_append]
      exact List.append_nil _

theorem receive_cases {req : HttpBuf} (ht : h.Tidy) (hreq : h.hReq = some req) :
    Kills s h (h.receive s req o) ∨ Idles h (h.receive s req o) ∨ Deals s o h (h.receive s req o) := by
  have hkill : Kills s h (h.httpKill s.fio) := ⟨h, rfl, rfl, rfl, rfl, rfl⟩
  unfold HttpConn.receive
  split
  · exact Or.inl hkill
  · cases hrecv : o.recv with
    | eagain => exact Or.inr (Or.inl ⟨_, rfl, rfl, rfl, rfl⟩)
    | error => exact Or.inl hkill
    | bytes bs =>
      dsimp only
      split
      · exact Or.inl hkill
      · obtain ⟨req', hdone, hun, -, hrd, hwr⟩ := req.bufDoneWrite_spec (List.length_take_le req.bufWrite bs)
        rw [hdone, ok_bind]
        have hroom : h.room = req.bufWrite := by
          rw [HttpConn.room, hreq]
        have hunread : h.unread = req.unread := by
          rw [HttpConn.unread, hreq]
        obtain hidles | ⟨head, rest, g, hsplit, hpiece, htakes, hgreq, hgun, hhandle⟩ :=
          received_cases (s := s) (o := o) ht hreq hun (hrd.trans (ht.front req hreq).1) hwr
        · exact Or.inr (Or.inl hidles)
        · refine Or.inr (Or.inr ⟨bs, head, rest, g, _, hrecv, ?_, hpiece, ?_, hgreq, hgun, hhandle⟩)
          · rw [hunread, hroom, hsplit]
          · rw [hroom]
            exact htakes

/-- What a read callback comes to. -/
theorem httpRead_cases (hstate : h.hState = .request) (ht : h.Tidy) :
    Kills s h (h.httpRead s o) ∨ Idles h (h.httpRead s o) ∨ Deals s o h (h.httpRead s o) := by
  unfold HttpConn.httpRead
  rw [if_neg (not_not.mpr hstate)]
  cases hreq : h.hReq with
  | some req => exact receive_cases ht hreq
  | none =>
    cases hblock : o.reqBlock with
    | none => exact Or.inl ⟨h, rfl, rfl, rfl, rfl, rfl⟩
    | some block =>
      have hempty : h.unread = [] := by
        rw [HttpConn.unread, hreq]
      have hroom : h.room = HTTP_MAX_RESP := by
        rw [HttpConn.room, hreq]
      have ht' : (h.withReq (some (.alloc block HTTP_MAX_RESP)) .initial 0).Tidy := by
        refine ⟨?_, noHead_nil [], ?_⟩
        · have hcut := ht.cut
          rw [hempty] at hcut
          exact hcut
        · rintro _ ⟨⟩
          exact ⟨rfl, Nat.le_refl 0, Rstate.tracks_initial, rfl⟩
      obtain hkills | hidles | ⟨bs, head, rest, g, req, hrecv, hsplit, hpiece, htakes, hgreq, hgun, hhandle⟩ :=
        receive_cases (s := s) (o := o) ht' rfl
      · exact Or.inl hkills
      · exact Or.inr (Or.inl hidles)
      · refine Or.inr (Or.inr ⟨bs, head, rest, g, req, hrecv, ?_, hpiece, ?_, hgreq, hgun, hhandle⟩)
        · rw [hempty, hroom]
          exact hsplit
        · obtain ⟨hlog, hst, hnbio, haio, hroot, hres⟩ := htakes
          rw [hroom]
          exact ⟨hlog, hst, hnbio, haio, hroot, hres⟩

theorem httpKill_waiting (fio : Fio) (hstate : h.hState = .request) (hres : h.hRes = none) (hfd : h.hNbio.fd = true) :
    ∃ h', h.httpKill fio = .ok h' ∧ h'.hState = .dead ∧ sentBytes h'.log = sentBytes h.log := by
  obtain ⟨h', -, hok, hdead, -⟩ := HttpConn.httpKill_spec fio (Or.inr ⟨hstate, hres⟩) hfd
  exact ⟨h', hok, hdead, (httpKill_bodily hok).unsent (by rw [hstate]; decide)⟩

/-- A request that is complete is answered, or there is no memory for it. -/
theorem deals_cases (hc : Contract s X Ready) (hp : h.Poised s.fio) (hstate : h.hState = .request)
    (hpolite : Polite X Ready h (.read o)) {x : Except Fault HttpConn} (hdeals : Deals s o h x) :
    (∃ h', x = .ok h' ∧ h'.hState = .dead ∧ sentBytes h'.log = sentBytes h.log) ∨
    ∃ bs head rest g req wire h₁, h.unread ++ bs = head ++ rest ∧ TakesIn h bs g ∧ g.hReq = some req ∧
      req.unread = head ++ rest ∧ X head wire ∧ g.handleRequest s o = .ok h₁ ∧ Begins s g h₁ wire ∧ x = .ok h₁ := by
  obtain ⟨bs, head, rest, g, req, hrecv, hsplit, hpiece, htakes, hreq, hun, rfl⟩ := hdeals
  have haio : h.aio = none := by
    by_contra hne
    obtain ⟨-, hresp, -⟩ := hp.inFlight hne
    rcases hresp with hdata | hheader
    · cases hstate.symm.trans hdata
    · cases hstate.symm.trans hheader
  have hgstate : g.hState = .request := htakes.state.trans hstate
  have hgfd : g.hNbio.fd = true := by rw [htakes.nbio, hp.unclosed.fd]
  unfold Polite at hpolite
  dsimp only at hpolite
  rw [hrecv] at hpolite
  obtain ⟨⟨wire, hx, hready⟩, -⟩ := hpolite head rest hsplit hpiece
  cases hblock : o.resBlock with
  | none =>
    obtain ⟨h', hok, hdead, hsent⟩ := httpKill_waiting (h := g.withRes none) s.fio hgstate rfl hgfd
    refine Or.inl ⟨h', ?_, hdead, hsent.trans ?_⟩
    · unfold HttpConn.handleRequest
      rw [if_neg (not_not.mpr hgstate), hblock]
      exact hok
    · show sentBytes g.log = _
      rw [htakes.log, sentBytes_append]
      exact List.append_nil _
  | some block =>
    have harrived : Arrived g o head := by
      refine ⟨hgstate, hgfd, ?_, htakes.aio.trans haio, by simp [hblock], req, rest, hreq, hun⟩
      rw [htakes.nbio, hp.mask haio, if_pos hstate]
      decide
    obtain ⟨h₁, hok, hbegins⟩ := hc.begins hx (hc.ready htakes.webroot hready) harrived
    exact Or.inr ⟨_, head, rest, g, req, wire, h₁, hsplit, htakes, hreq, hun, hx, hok, hbegins, hok⟩

/-- How far a session is that has gone through some requests with their responses: it waits for the next
request, it is on the way with the last response, or it has ended. -/
inductive Session (s : Server) (h : HttpConn) : List (Bytes × Bytes) → Prop
  | waiting {done : List (Bytes × Bytes)} (hstate : h.hState = .request)
      (hheads : answeredHeads h.log = done.map Prod.fst) (hsent : sentBytes h.log = (done.map Prod.snd).flatten) :
      Session s h done
  | answering {done : List (Bytes × Bytes)} {x : Bytes × Bytes} {h₁ : HttpConn} {es : List HttpConn.Happening}
      (hr : h.Responding) (hheads : answeredHeads h.log = (done ++ [x]).map Prod.fst)
      (hsent : sentBytes h₁.log = (done.map Prod.snd).flatten)
      (hrun : GuardedRun (HttpConn.Steps s) (fun h _ => h.Responding) h₁ es h) (hconveys : Conveys s h₁ x.2) :
      Session s h (done ++ [x])
  | ended {done : List (Bytes × Bytes)} (hstate : h.hState = .dead)
      (hsent : sentBytes h.log <+: (done.map Prod.snd).flatten) : Session s h done

/-- The log only grows. -/
theorem steps_log_extends {e : HttpConn.Happening} (hstep : h.Steps s e h') : h.log <+: h'.log := by
  have hsteady : Steady fun g => h.log <+: g.log := by
    refine ⟨fun _ hp => hp, fun _ hp => hp, fun _ _ _ hp => hp, fun _ hp => hp, fun _ hp => hp, fun _ _ hp => hp,
      fun _ hp => hp, fun _ hp => hp, fun _ hp => hp.trans (List.prefix_append _ _), ?_⟩
    intro g hp
    obtain ⟨heq, -⟩ | ⟨w, -, heq⟩ := dropWebroot_cases g
    · rw [heq]
      exact hp
    · rw [heq]
      exact hp.trans (List.prefix_append _ _)
  refine hsteady.step hsteady (fun _ => id) List.prefix_rfl ?_ hstep
  intro _ _ w _ _ g hp
  exact hp.trans (List.prefix_append _ _)

theorem receivedBytes_mono {l l' : List Event} (hpre : l <+: l') : receivedBytes l <+: receivedBytes l' := by
  obtain ⟨new, rfl⟩ := hpre
  rw [receivedBytes_append]
  exact List.prefix_append _ _

/-- While a response is sent, nothing is received, and no other request answered. -/
theorem step_tended {e : HttpConn.Happening} (hr : h.Responding) (hfd : h.hNbio.fd = true) (hstep : h.Steps s e h') :
    h'.hState = .dead ∨ SameRequest h h' := by
  unfold HttpConn.Steps HttpConn.step at hstep
  cases e with
  | ready | error =>
    dsimp only at hstep
    split at hstep
    · cases hstep
      exact Or.inr (sameRequest_withNbio h rfl)
    · cases hstep
  | read o =>
    dsimp only at hstep
    split at hstep
    · obtain ⟨h₁, hok, -⟩ := map_eq_ok_iff.mp hstep
      have hstate : h.hState ≠ .request := by
        rcases hr with hstate | hstate
        · rw [hstate]
          decide
        · rw [hstate]
          decide
      unfold HttpConn.httpRead at hok
      rw [if_pos hstate] at hok
      cases hok
    · cases hstep
  | write o =>
    dsimp only at hstep
    split at hstep
    · obtain ⟨h₁, hok, hsome⟩ := map_eq_ok_iff.mp hstep
      cases hsome
      exact (httpWrite_tended hfd hok).imp id And.left
    · cases hstep
  | completion result =>
    dsimp only at hstep
    split at hstep
    · cases hstep
    · obtain ⟨h₁, hok, hsome⟩ := map_eq_ok_iff.mp hstep
      cases hsome
      exact (handleCompletion_tended hfd hok).imp id And.left

/-- The response goes on, ends, or ends with the connection. -/
theorem Session.step_answering {x : Bytes × Bytes} {es : List HttpConn.Happening} {e : HttpConn.Happening}
    (hr : h.Responding) (hfd : h.hNbio.fd = true) (hheads : answeredHeads h.log = (done ++ [x]).map Prod.fst)
    (hsent : sentBytes h₁.log = (done.map Prod.snd).flatten)
    (hrun : GuardedRun (HttpConn.Steps s) (fun h _ => h.Responding) h₁ es h) (hconveys : Conveys s h₁ x.2)
    (hstep : h.Steps s e h') : Session s h' (done ++ [x]) := by
  have hrun' := hrun.step hr hstep
  obtain ⟨new, hlog, hprefix, hall⟩ := hconveys _ _ hrun'
  have hwire : ((done ++ [x]).map Prod.snd).flatten = (done.map Prod.snd).flatten ++ x.2 := by simp
  have hbytes : sentBytes h'.log = (done.map Prod.snd).flatten ++ sentBytes new := by
    rw [hlog, sentBytes_append, hsent]
  have hsame : h'.hState ≠ .dead → answeredHeads h'.log = (done ++ [x]).map Prod.fst := by
    intro hlive
    rw [((step_tended hr hfd hstep).resolve_left hlive).answered, hheads]
  cases hstate : h'.hState with
  | request =>
    refine .waiting hstate (hsame (by simp [hstate])) ?_
    rw [hbytes, hall hstate, hwire]
  | header => exact .answering (Or.inr hstate) (hsame (by simp [hstate])) hsent hrun' hconveys
  | data => exact .answering (Or.inl hstate) (hsame (by simp [hstate])) hsent hrun' hconveys
  | dead =>
    refine .ended hstate ?_
    rw [hbytes, hwire]
    exact (List.prefix_append_right_inj _).mpr hprefix

theorem HttpConn.Tidy.received_eq (ht : h.Tidy) : receivedBytes h.log = (answeredHeads h.log).flatten ++ h.unread := by
  have hflat : (cutAll EndsHead (receivedBytes h.log)).1.flatten ++ (cutAll EndsHead (receivedBytes h.log)).2 =
      receivedBytes h.log := cutAll_flatten _
  rw [ht.cut] at hflat
  exact hflat.symm

/-- What is asked for is answered. -/
theorem Session.step_waiting (hc : Contract s X Ready) (hp : h.Poised s.fio) (ht : h.Tidy) (hstate : h.hState = .request)
    (hheads : answeredHeads h.log = done.map Prod.fst) (hsent : sentBytes h.log = (done.map Prod.snd).flatten)
    (hpolite : Polite X Ready h (.read o)) : ∃ h', h.httpRead s o = .ok h' ∧
      (Session s h' done ∨ ∃ x, X x.1 x.2 ∧ Session s h' (done ++ [x]) ∧
        ((done ++ [x]).map Prod.fst).flatten <+: receivedBytes h'.log) := by
  have hres : h.hRes = none := by
    by_contra hne
    cases hstate.symm.trans (hp.res.mp hne)
  have hends : ∀ {x : Except Fault HttpConn}, (∃ h', x = .ok h' ∧ h'.hState = .dead ∧
      sentBytes h'.log = sentBytes h.log) → ∃ h', x = .ok h' ∧ (Session s h' done ∨ ∃ x, X x.1 x.2 ∧
        Session s h' (done ++ [x]) ∧ ((done ++ [x]).map Prod.fst).flatten <+: receivedBytes h'.log) := by
    rintro x ⟨h', hok, hdead, hunsent⟩
    exact ⟨h', hok, Or.inl (.ended hdead (by rw [hunsent, hsent]))⟩
  obtain ⟨g, hlog, hgstate, hnbio, hgres, hkill⟩ | ⟨h', hok, hstate', hunsent, hheads'⟩ | hdeals :=
    httpRead_cases (s := s) (o := o) hstate ht
  · obtain ⟨h', hok, hdead, hunsent⟩ := httpKill_waiting (h := g) s.fio (hgstate.trans hstate)
      (hgres.trans hres) (by rw [hnbio, hp.unclosed.fd])
    exact hends ⟨h', hkill.trans hok, hdead, by rw [hunsent, hlog]⟩
  · exact ⟨h', hok, Or.inl (.waiting (hstate'.trans hstate) (hheads'.trans hheads) (hunsent.trans hsent))⟩
  · obtain hdead | ⟨bs, head, rest, g, req, wire, h₁, hsplit, htakes, hreq, hun, hx, hhandle, hbegins, hok⟩ :=
      deals_cases hc hp hstate hpolite hdeals
    · exact hends hdead
    · have hgsent : sentBytes g.log = sentBytes h.log := by
        rw [htakes.log, sentBytes_append]
        exact List.append_nil _
      have hganswered : answeredHeads g.log = answeredHeads h.log := by
        rw [htakes.log, answeredHeads_append]
        exact List.append_nil _
      have hlive : h₁.hState ≠ .dead := by
        rw [hbegins.state]
        decide
      have hgfd : g.hNbio.fd = true := by rw [htakes.nbio, hp.unclosed.fd]
      obtain ⟨-, hdoomed | ⟨hreceived, hanswered, -⟩⟩ :=
        (handleRequest_spec hgfd hreq hun (hc.ends hx) hhandle).resolve_left hlive
      · exact absurd hbegins.stays hdoomed.2.2
      · refine ⟨h₁, hok, Or.inr ⟨(head, wire), hx, .answering (Or.inr hbegins.state) ?_
          (hbegins.unsent.trans (hgsent.trans hsent)) (.start h₁) hbegins.conveys, ?_⟩⟩
        · rw [hanswered, hganswered, hheads, List.map_append]
          rfl
        · rw [hreceived, htakes.log, receivedBytes_append, ht.received_eq, hheads, List.map_append, List.flatten_append,
            List.append_assoc]
          show _ <+: _ ++ (h.unread ++ (bs ++ []))
          rw [List.append_nil, hsplit]
          refine (List.prefix_append_right_inj _).mpr ?_
          show [head].flatten <+: _
          rw [List.flatten_singleton]
          exact List.prefix_append _ _

/-- What holds of a connection all the time: its state, its requests, and its session, which consists of
requests that were received and their responses. -/
structure InSession (s : Server) (X : Bytes → Bytes → Prop) (h : HttpConn) (done : List (Bytes × Bytes)) : Prop where
  settled : h.Settled s.fio
  orderly : h.Orderly
  meant : ∀ x ∈ done, X x.1 x.2
  received : (done.map Prod.fst).flatten <+: receivedBytes h.log
  session : Session s h done

theorem InSession.step (hc : Contract s X Ready) (hi : InSession s X h done) {e : HttpConn.Happening}
    (hpolite : Polite X Ready h e) (hstep : h.Steps s e h') : ∃ done', InSession s X h' done' := by
  have hne := hpolite.ne_error
  have hsettled := hi.settled.step hne hstep
  have horderly := step_orderly hi.orderly (hpolite.paced hc) hstep
  have hgrown := hi.received.trans (receivedBytes_mono (steps_log_extends hstep))
  obtain hs | hdead := hi.settled
  · cases hi.session with
    | ended hstate => exact absurd hstate hs.state
    | answering hr hheads hsent hrun hconveys =>
      exact ⟨_, hsettled, horderly, hi.meant, hgrown,
        Session.step_answering hr hs.unclosed.fd hheads hsent hrun hconveys hstep⟩
    | waiting hstate hheads hsent =>
      have hidle : h.aio = none := by
        by_contra haio
        obtain ⟨-, hresp, -⟩ := hs.inFlight haio
        rcases hresp with hdata | hheader
        · cases hstate.symm.trans hdata
        · cases hstate.symm.trans hheader
      unfold HttpConn.Steps HttpConn.step at hstep
      cases e with
      | error => exact absurd rfl hne
      | ready flags =>
        dsimp only at hstep
        split at hstep
        · cases hstep
          exact ⟨done, hsettled, horderly, hi.meant, hgrown, .waiting hstate hheads hsent⟩
        · cases hstep
      | completion result =>
        dsimp only at hstep
        rw [hidle] at hstep
        cases hstep
      | write o =>
        dsimp only at hstep
        split at hstep
        · next hcalled =>
          rcases hs.toPoised.responding_of_called hcalled with hdata | hheader
          · cases hstate.symm.trans hdata
          · cases hstate.symm.trans hheader
        · cases hstep
      | read o =>
        dsimp only at hstep
        split at hstep
        · obtain ⟨h₁, hok, hsome⟩ := map_eq_ok_iff.mp hstep
          cases hsome
          have ht : h.Tidy := by
            obtain hdead | ⟨-, hdoomed | ht⟩ := hi.orderly
            · exact absurd hdead hs.state
            · cases hstate.symm.trans hdoomed.1
            · exact ht
          obtain ⟨h₂, hok₂, hcase⟩ := Session.step_waiting hc hs.toPoised ht hstate hheads hsent hpolite
          cases hok₂.symm.trans hok
          obtain hsession | ⟨x, hx, hsession, hreceived⟩ := hcase
          · exact ⟨done, hsettled, horderly, hi.meant, hgrown, hsession⟩
          · refine ⟨done ++ [x], hsettled, horderly, ?_, hreceived, hsession⟩
            intro y hy
            rcases List.mem_append.mp hy with hy | hy
            · exact hi.meant y hy
            · rw [List.mem_singleton.mp hy]
              exact hx
        · cases hstep
  · unfold HttpConn.Steps at hstep
    rw [hdead.step e] at hstep
    cases hstep

/-- The requests received so far and what was sent: the responses in the order of the requests, the
last one as far as it went. A connection that waits for a request has answered all of them. -/
def InTurn (X : Bytes → Bytes → Prop) (h : HttpConn) : Prop :=
  ∃ done : List (Bytes × Bytes), (∀ x ∈ done, X x.1 x.2) ∧ (done.map Prod.fst).flatten <+: receivedBytes h.log ∧
    sentBytes h.log <+: (done.map Prod.snd).flatten ∧
    (h.hState = .request → sentBytes h.log = (done.map Prod.snd).flatten ∧
      cutAll EndsHead (receivedBytes h.log) = (done.map Prod.fst, h.unread))

/-- A connection that is destroyed has sent what it has sent. -/
theorem InTurn.httpDtor (ht : InTurn X h) : InTurn X h.httpDtor := by
  obtain ⟨done, hmeant, hreceived, hsent, -⟩ := ht
  obtain ⟨hlog, hstate⟩ : (receivedBytes h.httpDtor.log = receivedBytes h.log ∧
      sentBytes h.httpDtor.log = sentBytes h.log) ∧ h.httpDtor.hState = .dead := by
    obtain ⟨heq, -⟩ | ⟨w, -, heq⟩ := dropWebroot_cases (h.withState .dead)
    · rw [HttpConn.httpDtor, heq]
      exact ⟨⟨rfl, rfl⟩, rfl⟩
    · rw [HttpConn.httpDtor, heq]
      refine ⟨⟨?_, ?_⟩, rfl⟩
      · show receivedBytes (h.log ++ [.webrootUnref w]) = _
        rw [receivedBytes_append]
        exact List.append_nil _
      · show sentBytes (h.log ++ [.webrootUnref w]) = _
        rw [sentBytes_append]
        exact List.append_nil _
  refine ⟨done, hmeant, by rwa [hlog.1], by rwa [hlog.2], fun hrequest => ?_⟩
  cases hrequest.symm.trans hstate

/-- What happens to a connection is what it may be asked. -/
def PolitePool (X : Bytes → Bytes → Prop) (Ready : HttpConn → ReadResults → Bytes → Prop) (p : ConnPool) :
    PoolEvent → Prop
  | .conn i e => e ≠ .error ∧ ∀ h, p.peers[i]? = some ⟨h, false⟩ → Polite X Ready h e
  | .accept | .dtor _ => True

theorem PolitePool.ne_error {p : ConnPool} {ev : PoolEvent} (hpolite : PolitePool X Ready p ev) (i : ℕ) :
    ev ≠ .conn i .error := by
  rintro rfl
  exact hpolite.1 rfl

end Ashttpd
