import Ashttpd.Responding

/-!
# The body of a response reaches the socket as it is in the file

For every I/O model the bytes sent, the bytes held in a buffer ahead of `h_data_off` and the rest of
the file from there on make up the slice that is to be sent. Every step of a response keeps this.
-/
namespace Ashttpd

/-- The I/O model holds the bytes `ahead` of those that `h_data_off` and `h_data_len` tell. A read in
flight keeps the connection from being called back, and goes to an empty buffer. -/
def Fio.Holds (fio : Fio) (w : ℕ) (file : Bytes) (h : HttpConn) (ahead : Bytes) : Prop :=
  match fio with
  | .sync => h.aio = none ∧ ∃ buf, h.hIoPriv = some buf ∧ buf.bEnd = HTTP_DATA_BUFFER ∧
      ahead = buf.unread ∧ 0 < buf.bufRead + h.hDataLen ∧
      (h.hDataLen ≤ buf.bufWrite ∨ buf.bRead = 0)
  | .sendfile => h.aio = none ∧ ahead = [] ∧ 0 < h.hDataLen
  | .async => ahead = [] ∧ 0 < h.hDataLen ∧ ∃ buf, h.hIoPriv = some buf ∧
      buf.bEnd = HTTP_DATA_BUFFER ∧
      match h.aio with
      | none => buf.unread <+: fileSlice file h.hDataOff h.hDataLen
      | some iocb => buf.unread = [] ∧ 0 < buf.bufWrite ∧
          iocb = ⟨buf.bWrite, min h.hDataLen buf.bufWrite, h.hDataOff, w⟩ ∧
          h.hNbio.mask = 0 ∧ h.hNbio.list = .inactive ∧ h.hNbio.polled = false

/-- The connection responds with the `len` bytes from `ofs` on of the file of `w`, and the bytes
`sent` of them were handed to the socket. The file may end before. -/
structure Serving (s : Server) (w ofs len : ℕ) (h : HttpConn) (sent : Bytes) : Prop where
  responding : h.Responding
  fd : h.hNbio.fd = true
  noRead : h.hNbio.mask &&& NBIO_READ = 0
  webroot : h.hWebroot = some w
  bounds : h.hDataOff + h.hDataLen = ofs + len
  header : h.hState = .header →
    sent = [] ∧ h.hDataLen ≠ 0 ∧ ∃ res, h.hRes = some res ∧ 0 < res.bufRead
  data : h.hState = .data → h.hRes = none
  stream : ∃ ahead, sent ++ ahead ++ fileSlice (s.roots.file w) h.hDataOff h.hDataLen =
      fileSlice (s.roots.file w) ofs len ∧ sent.length + ahead.length + h.hDataLen = len ∧
      s.fio.Holds w (s.roots.file w) h ahead

/-- The response goes on, or it is complete and all of the slice was sent. -/
def Proceeds (s : Server) (w ofs len : ℕ) (h : HttpConn) (sent : Bytes) (h' : HttpConn) : Prop :=
  ∃ new, h'.log = h.log ++ new ∧
    (Event.complete ∉ new ∧ Serving s w ofs len h' (sent ++ bodySent new) ∨
      ¬ h'.Responding ∧ Event.complete ∈ new ∧
        sent ++ bodySent new = fileSlice (s.roots.file w) ofs len ∧
        (sent ++ bodySent new).length = len)

/-- The connection was killed before the response was complete. -/
def Broken (s : Server) (w ofs len : ℕ) (h : HttpConn) (sent : Bytes) (h' : HttpConn) : Prop :=
  ¬ h'.Responding ∧ ∃ new, h'.log = h.log ++ new ∧ Event.complete ∉ new ∧
    sent ++ bodySent new <+: fileSlice (s.roots.file w) ofs len

/-- A write function has returned zero; what was sent until then is no more than it should be. -/
def Fails (s : Server) (w ofs len : ℕ) (h : HttpConn) (sent : Bytes) (h' : HttpConn) : Prop :=
  h'.Responding ∧ h'.hNbio.fd = true ∧ ∃ new, h'.log = h.log ++ new ∧ Event.complete ∉ new ∧
    sent ++ bodySent new <+: fileSlice (s.roots.file w) ofs len

section

variable {s : Server} {w ofs len : ℕ} {h h' : HttpConn} {sent : Bytes}

theorem Serving.sent_prefix (hs : Serving s w ofs len h sent) :
    sent <+: fileSlice (s.roots.file w) ofs len := by
  obtain ⟨ahead, hstream, -, -⟩ := hs.stream
  rw [← hstream, List.append_assoc]
  exact List.prefix_append sent _

theorem Serving.fails (hs : Serving s w ofs len h sent) : Fails s w ofs len h sent h :=
  ⟨hs.responding, hs.fd, [], by simp, by simp, by simpa using hs.sent_prefix⟩

theorem Serving.proceeds (hs : Serving s w ofs len h' sent) (hlog : h'.log = h.log) :
    Proceeds s w ofs len h sent h' := by
  refine ⟨[], by simp [hlog], Or.inl ⟨by simp, ?_⟩⟩
  simpa using hs

theorem Proceeds.of_log {g : HttpConn} (hd : Proceeds s w ofs len h sent h') (hlog : g.log = h.log) :
    Proceeds s w ofs len g sent h' := by
  unfold Proceeds at hd ⊢
  rwa [hlog]

theorem Fails.kill (hf : Fails s w ofs len h sent h') :
    ∃ h'', h'.httpKill s.fio = .ok h'' ∧ Broken s w ofs len h sent h'' := by
  obtain ⟨hr, hfd, new, hlog, hcomplete, hprefix⟩ := hf
  obtain ⟨h'', new', hkill, hdead, hlog', hquiet⟩ := HttpConn.httpKill_spec s.fio (Or.inl hr) hfd
  refine ⟨h'', hkill, ?_, new ++ new', by rw [hlog', hlog, List.append_assoc], ?_, ?_⟩
  · unfold HttpConn.Responding
    simp [hdead]
  · rw [List.mem_append, not_or]
    exact ⟨hcomplete, hquiet.2⟩
  · rw [bodySent_append, hquiet.1, List.append_nil]
    exact hprefix

/-- When nothing is left the body is complete. -/
theorem proceeds_complete {g : HttpConn} (new : List Event) {bs : Bytes} (hs : h.hState = .data)
    (hlen : h.hDataLen = 0) (hmask : h.hNbio.mask ≠ NBIO_DELETED) (hfd : h.hNbio.fd = true)
    (hres : h.hRes = none) (hlog : h.log = g.log ++ new) (hbody : bodySent new = bs)
    (hall : sent ++ bs = fileSlice (s.roots.file w) ofs len) (hcount : (sent ++ bs).length = len) :
    ∃ h', h.httpConnDataComplete s.fio = .ok h' ∧ Proceeds s w ofs len g sent h' ∧
      g.log ++ new <+: h'.log := by
  obtain ⟨h', new', hdone, hstate, hlog', hquiet⟩ :=
    HttpConn.httpConnDataComplete_spec s.fio hs hlen hmask hfd hres
  refine ⟨h', hdone, ⟨new ++ .complete :: new', by rw [hlog', hlog, List.append_assoc],
    Or.inr ⟨?_, by simp, ?_⟩⟩, by rw [hlog', hlog]; exact List.prefix_append _ _⟩
  · unfold HttpConn.Responding
    obtain hstate | hstate := hstate
    · simp [hstate]
    · simp [hstate]
  · have hsent : bodySent (new ++ .complete :: new') = bs := by
      rw [bodySent_append, bodySent_cons, hquiet.1, hbody]
      simp [Event.body]
    rw [hsent]
    exact ⟨hall, hcount⟩

/-- Waiting for the socket changes nothing of the response. -/
theorem Serving.withNbio (hs : Serving s w ofs len h sent) {io : Nbio} (hfd : io.fd = true)
    (hread : io.mask &&& NBIO_READ = 0)
    (hflight : h.aio = none) :
    Serving s w ofs len (h.withNbio io) sent := by
  obtain ⟨hresp, -, -, hw, hb, hh, hd, ahead, hstream, hcount, hio⟩ := hs
  refine ⟨hresp, hfd, hread, hw, hb, hh, hd, ahead, hstream, hcount, ?_⟩
  cases hf : s.fio with
  | sync =>
    rw [hf] at hio
    exact hio
  | sendfile =>
    rw [hf] at hio
    exact hio
  | async =>
    rw [hf] at hio
    obtain ⟨h1, h2, buf, h3, h4, h5⟩ := hio
    rw [hflight] at h5
    refine ⟨h1, h2, buf, h3, h4, ?_⟩
    show match h.aio with
      | none => _
      | some iocb => _
    rw [hflight]
    exact h5

def Starved (h : HttpConn) : Prop :=
  h.hDataLen = 0 ∧ ∃ buf, h.hIoPriv = some buf ∧ buf.bufWrite ≠ 0

/-- Topping up moves bytes from the file to the buffer, and leaves some to be sent. If the file
is long enough, it fails only for want of something to read or for an error. -/
theorem ioSyncTopUp_spec (hf : s.fio = .sync) (hs : Serving s w ofs len h sent)
    (hstate : h.hState = .data) (preads : List PreadResult) :
    ∃ o, h.ioSyncTopUp s.roots preads = .ok o ∧
      (o = none → ofs + len ≤ (s.roots.file w).length → Starved h ∨ .error ∈ preads) ∧
      ∀ h' ∈ o, Serving s w ofs len h' sent ∧ h'.log = h.log ∧ h'.hState = .data ∧
        h'.hNbio = h.hNbio ∧ ∃ buf, h'.hIoPriv = some buf ∧ 0 < buf.bufRead := by
  obtain ⟨hresp, hfd, hread, hw, hb, hh, hd, ahead, hstream, hcount, hio⟩ := hs
  rw [hf] at hio
  obtain ⟨haio, buf, hpriv, hend, rfl, hpending, htidy⟩ := hio
  have hle := buf.read_le
  have hle' := buf.write_le
  unfold HttpConn.ioSyncTopUp
  rw [HttpConn.httpConnGetPriv_eq hresp, ok_bind, hpriv, HttpConn.httpConnData_eq hresp hw]
  simp only [deref, ok_bind]
  by_cases hroom : buf.bufWrite = 0
  · rw [if_pos hroom]
    refine ⟨some h, rfl, by simp, ?_⟩
    rintro h' ⟨⟩
    refine ⟨⟨hresp, hfd, hread, hw, hb, hh, hd, buf.unread, hstream, hcount, ?_⟩, rfl, hstate, rfl, buf,
      hpriv, ?_⟩
    · rw [hf]
      exact ⟨haio, buf, hpriv, hend, rfl, hpending, htidy⟩
    · have hsize : 0 < HTTP_DATA_BUFFER := by decide
      unfold HttpBuf.bufWrite at hroom htidy
      unfold HttpBuf.bufRead at hpending ⊢
      omega
  · rw [if_neg hroom]
    obtain ⟨sz, hsz⟩ : ∃ sz, sz = min buf.bufWrite h.hDataLen := ⟨_, rfl⟩
    rw [← hsz]
    have hcause : fdPread (s.roots.file w) preads h.hDataOff sz ≠
        some (fileSlice (s.roots.file w) h.hDataOff sz, false) →
        ofs + len ≤ (s.roots.file w).length → Starved h ∨ PreadResult.error ∈ preads := by
      intro hshort hpres
      by_cases hleft : h.hDataLen = 0
      · exact Or.inl ⟨hleft, buf, hpriv, hroom⟩
      · obtain hfull | ⟨-, hmem⟩ := fdPread_spec preads
          (by omega : h.hDataOff + sz ≤ (s.roots.file w).length) (by omega : 0 < sz)
        · exact absurd hfull hshort
        · exact Or.inr hmem
    cases hres : fdPread (s.roots.file w) preads h.hDataOff sz with
    | none => exact ⟨none, rfl, fun _ => hcause (by simp [hres]), by simp⟩
    | some res =>
      obtain ⟨bs, eof⟩ := res
      cases eof with
      | true => exact ⟨none, rfl, fun _ => hcause (by simp [hres]), by simp⟩
      | false =>
        obtain ⟨rfl, hlen⟩ := fdPread_eq_some_false hres
        have hfits : (fileSlice (s.roots.file w) h.hDataOff sz).length ≤ buf.bufWrite := by omega
        obtain ⟨buf', hdone, hun, hend', hrd, hwr⟩ := buf.bufDoneWrite_spec hfits
        rw [hlen] at hwr
        dsimp only
        rw [hdone, ok_bind, hlen, HttpConn.httpConnDataRead_eq
          (h := h.withPriv (some buf')) hresp (show sz ≤ h.hDataLen by omega)]
        refine ⟨_, rfl, by simp, ?_⟩
        rintro h' ⟨⟩
        have hsplit := fileSlice_append (s.roots.file w) h.hDataOff (by omega : sz ≤ h.hDataLen)
        have hpos : 0 < buf'.bufRead := by
          unfold HttpBuf.bufRead at hpending ⊢
          unfold HttpBuf.bufWrite at hroom hsz
          rw [hrd, hwr]
          omega
        refine ⟨⟨hresp, hfd, hread, hw, ?_, ?_, hd, buf'.unread, ?_, ?_, ?_⟩, rfl, hstate, rfl, buf', rfl,
          hpos⟩
        · show h.hDataOff + sz + (h.hDataLen - sz) = ofs + len
          omega
        · intro hstate'
          have hstate'' : h.hState = .header := hstate'
          rw [hstate] at hstate''
          cases hstate''
        · show sent ++ buf'.unread ++ fileSlice _ (h.hDataOff + sz) (h.hDataLen - sz) = _
          rw [← hstream, hun, hsplit]
          simp [List.append_assoc]
        · show sent.length + buf'.unread.length + (h.hDataLen - sz) = len
          rw [hun, List.length_append, hlen]
          omega
        · rw [hf]
          refine ⟨haio, buf', rfl, hend'.trans hend, rfl, Nat.add_pos_left hpos _, ?_⟩
          show h.hDataLen - sz ≤ buf'.bufWrite ∨ buf'.bRead = 0
          unfold HttpBuf.bufWrite at hsz htidy ⊢
          rw [hend', hwr, hrd]
          omega

/-- What is left to be sent decides how `io_sync_write` ends. -/
theorem ioSyncSent_spec (hf : s.fio = .sync) (hs : Serving s w ofs len h sent)
    (hstate : h.hState = .data) (hmask : h.hNbio.mask ≠ NBIO_DELETED) {buf rest : HttpBuf} {bs : Bytes}
    (hpriv : h.hIoPriv = some buf) (hun : buf.unread = bs ++ rest.unread) (hend : rest.bEnd = buf.bEnd) :
    ∃ h', (h.logged [.sent h.hState bs]).ioSyncSent rest = .ok h' ∧ Proceeds s w ofs len h sent h' ∧
      h.log ++ [.sent h.hState bs] <+: h'.log := by
  obtain ⟨hresp, hfd, hread, hw, hb, hh, hd, ahead, hstream, hcount, hio⟩ := hs
  rw [hf] at hio
  obtain ⟨haio, buf₀, hpriv₀, hend₀, rfl, -, -⟩ := hio
  rw [hpriv] at hpriv₀
  cases hpriv₀
  have hstream' : sent ++ bs ++ rest.unread ++ fileSlice (s.roots.file w) h.hDataOff h.hDataLen =
      fileSlice (s.roots.file w) ofs len := by
    rw [← hstream, hun]
    simp only [List.append_assoc]
  have hcount' : (sent ++ bs).length + rest.unread.length + h.hDataLen = len := by
    rw [hun] at hcount
    simp only [List.length_append] at hcount ⊢
    omega
  unfold HttpConn.ioSyncSent
  by_cases hlast : rest.bufRead + h.hDataLen = 0
  · have hunread : rest.unread = [] := rest.unread_eq_nil_iff.mpr (by omega)
    have hall : sent ++ bs = fileSlice (s.roots.file w) ofs len := by
      rw [← hstream', hunread, show h.hDataLen = 0 by omega, fileSlice_zero]
      simp
    have hcount : (sent ++ bs).length = len := by
      rw [hunread] at hcount'
      simp only [List.length_nil] at hcount'
      omega
    rw [if_pos (show rest.bufRead + (h.logged [.sent h.hState bs]).hDataLen = 0 from hlast),
      HttpConn.httpConnSetPriv_eq (h := h.logged [.sent h.hState bs]) hresp, ok_bind, ← hf]
    obtain ⟨h', hdone, hproceeds, hlog⟩ := proceeds_complete (g := h)
      (h := ((h.logged [.sent h.hState bs]).withPriv none).free (some rest) .data)
      [.sent h.hState bs, .freed .data] hstate (show h.hDataLen = 0 by omega) hmask hfd (hd hstate)
      (by simp [HttpConn.free]) (by rw [hstate]; simp [Event.body]) hall hcount
    refine ⟨h', hdone, hproceeds, List.IsPrefix.trans ?_ hlog⟩
    exact (List.prefix_append_right_inj _).mpr ⟨[.freed .data], rfl⟩
  · rw [if_neg (show ¬ rest.bufRead + (h.logged [.sent h.hState bs]).hDataLen = 0 from hlast)]
    have hkeep : ∀ buf' : HttpBuf, buf'.unread = rest.unread → buf'.bEnd = HTTP_DATA_BUFFER →
        (h.hDataLen ≤ buf'.bufWrite ∨ buf'.bRead = 0) →
        Proceeds s w ofs len h sent ((h.logged [.sent h.hState bs]).withPriv (some buf')) := by
      intro buf' hun' hend' htidy'
      have hbody : bodySent [Event.sent h.hState bs] = bs := by
        rw [hstate]
        simp [Event.body]
      refine ⟨[.sent h.hState bs], rfl, Or.inl ⟨by simp, ?_⟩⟩
      rw [hbody]
      refine ⟨hresp, hfd, hread, hw, hb, ?_, hd, buf'.unread, ?_, ?_, ?_⟩
      · intro hstate'
        have hstate'' : h.hState = .header := hstate'
        rw [hstate] at hstate''
        cases hstate''
      · rw [hun']
        exact hstream'
      · rw [hun']
        exact hcount'
      · rw [hf]
        refine ⟨haio, buf', rfl, hend', rfl, ?_, htidy'⟩
        rw [← HttpBuf.unread_length, hun', HttpBuf.unread_length]
        exact Nat.pos_of_ne_zero hlast
    have hend' := hend.trans hend₀
    by_cases hshort : rest.bufWrite < (h.logged [.sent h.hState bs]).hDataLen
    · rw [if_pos hshort]
      exact ⟨_, rfl, hkeep _ rest.unread_bufReset (rest.bufReset_spec.2.1.trans hend')
        (Or.inr rest.bufReset_spec.2.2.1), List.prefix_rfl⟩
    · rw [if_neg hshort]
      exact ⟨_, rfl, hkeep _ rfl hend' (Or.inl (Nat.not_lt.mp hshort)), List.prefix_rfl⟩

/-- Sending takes bytes from the buffer, and fails only if the system does. -/
theorem ioSyncSend_spec (hf : s.fio = .sync) (hs : Serving s w ofs len h sent)
    (hstate : h.hState = .data) (hmask : h.hNbio.mask ≠ NBIO_DELETED)
    (hpos : ∃ buf, h.hIoPriv = some buf ∧ 0 < buf.bufRead) (send : SendResult) :
    ∃ h' ok, h.ioSyncSend send = .ok (h', ok) ∧
      (ok = true → Proceeds s w ofs len h sent h' ∧ (send ≠ .eagain →
        ∃ bs ≠ [], h.log ++ [.sent .data bs] <+: h'.log)) ∧
      (ok = false → h' = h ∧ (send = .error ∨ send = .sent 0)) := by
  obtain ⟨buf, hpriv, hpos⟩ := hpos
  unfold HttpConn.ioSyncSend
  rw [hpriv]
  simp only [deref, ok_bind]
  cases send with
  | error => exact ⟨h, false, rfl, by simp, fun _ => ⟨rfl, Or.inl rfl⟩⟩
  | eagain =>
    dsimp only
    rw [HttpConn.httpConnInactive_eq hs.responding]
    refine ⟨_, true, rfl, fun _ => ?_, by simp⟩
    have haio : h.aio = none := by
      obtain ⟨ahead, -, -, hio⟩ := hs.stream
      rw [hf] at hio
      exact hio.1
    exact ⟨(hs.withNbio (by simpa using hs.fd) (by simpa using hs.noRead) haio).proceeds rfl, by simp⟩
  | sent n =>
    dsimp only
    by_cases hzero : min n buf.bufRead = 0
    · rw [if_pos hzero]
      exact ⟨h, false, rfl, by simp, fun _ => ⟨rfl, Or.inr (by rw [show n = 0 by omega])⟩⟩
    · rw [if_neg hzero]
      obtain ⟨rest, hdone, hun, hend, -, -⟩ :=
        buf.bufDoneRead_spec (by omega : min n buf.bufRead ≤ buf.bufRead)
      obtain ⟨h', hsent, hproceeds, hlog⟩ := ioSyncSent_spec hf hs hstate hmask hpriv hun hend
      rw [hdone, ok_bind, hsent]
      refine ⟨h', true, rfl, fun _ => ⟨hproceeds, fun _ => ⟨_, ?_, by rwa [hstate] at hlog⟩⟩, by simp⟩
      rw [← List.length_pos_iff, List.length_take, HttpBuf.unread_length]
      omega

/-- `io_sync_write` returns zero for a file that is long enough only if the system fails, or if it
finds nothing to read. -/
theorem ioSyncWrite_spec (hf : s.fio = .sync) (hs : Serving s w ofs len h sent)
    (hstate : h.hState = .data) (hmask : h.hNbio.mask ≠ NBIO_DELETED) (preads : List PreadResult)
    (send : SendResult) :
    ∃ h' ok, h.ioSyncWrite s.roots preads send = .ok (h', ok) ∧
      (ok = true → Proceeds s w ofs len h sent h' ∧ (send ≠ .eagain →
        ∃ bs ≠ [], h.log ++ [.sent .data bs] <+: h'.log)) ∧
      (ok = false → Fails s w ofs len h sent h' ∧ (ofs + len ≤ (s.roots.file w).length →
        Starved h ∨ .error ∈ preads ∨ send = .error ∨ send = .sent 0)) := by
  obtain ⟨o, htop, hnone, hsome⟩ := ioSyncTopUp_spec hf hs hstate preads
  unfold HttpConn.ioSyncWrite
  rw [htop, ok_bind]
  cases o with
  | none =>
    refine ⟨h, false, rfl, by simp, fun _ => ⟨hs.fails, fun hpres => ?_⟩⟩
    obtain hstarved | hmem := hnone rfl hpres
    · exact Or.inl hstarved
    · exact Or.inr (Or.inl hmem)
  | some h₁ =>
    obtain ⟨hs₁, hlog₁, hstate₁, hnbio₁, hpos₁⟩ := hsome h₁ rfl
    have hmask₁ : h₁.hNbio.mask ≠ NBIO_DELETED := by rwa [hnbio₁]
    obtain ⟨h', ok, hsend, htrue, hfalse⟩ := ioSyncSend_spec hf hs₁ hstate₁ hmask₁ hpos₁ send
    refine ⟨h', ok, hsend, fun hok => ?_, fun hok => ?_⟩
    · obtain ⟨hproceeds, hprogress⟩ := htrue hok
      rw [hlog₁] at hprogress
      exact ⟨hproceeds.of_log hlog₁.symm, hprogress⟩
    · obtain ⟨rfl, hsys⟩ := hfalse hok
      refine ⟨?_, fun _ => Or.inr (Or.inr hsys)⟩
      obtain ⟨hr, hfd, new, hlog, hrest⟩ := hs₁.fails
      exact ⟨hr, hfd, new, by rw [hlog, hlog₁], hrest⟩

theorem fileSlice_advance {file bs : Bytes} {off n : ℕ} (hnext : bs <+: fileSlice file off n)
    (hstream : sent ++ [] ++ fileSlice file off n = fileSlice file ofs len)
    (hcount : sent.length + ([] : Bytes).length + n = len) :
    bs.length ≤ n ∧ sent ++ bs ++ fileSlice file (off + bs.length) (n - bs.length) = fileSlice file ofs len ∧
      (sent ++ bs).length + (n - bs.length) = len := by
  obtain ⟨hk, hsplit⟩ := fileSlice_of_prefix hnext
  refine ⟨hk, ?_, ?_⟩
  · rw [← hstream, hsplit]
    simp
  · rw [List.length_append]
    simp only [List.length_nil] at hcount
    omega

/-- The end of `io_sendfile_write`, after bytes that are next in the file. -/
theorem ioSendfileSent_spec (hf : s.fio = .sendfile) (hs : Serving s w ofs len h sent)
    (hstate : h.hState = .data) (hmask : h.hNbio.mask ≠ NBIO_DELETED) {bs : Bytes}
    (hnext : bs <+: fileSlice (s.roots.file w) h.hDataOff h.hDataLen) :
    ∃ h', (h.logged [.sent h.hState bs]).ioSendfileSent bs.length = .ok h' ∧
      Proceeds s w ofs len h sent h' := by
  obtain ⟨hresp, hfd, hread, hw, hb, hh, hd, ahead, hstream, hcount, hio⟩ := hs
  rw [hf] at hio
  obtain ⟨haio, rfl, -⟩ := hio
  obtain ⟨hk, hstream', hcount'⟩ := fileSlice_advance hnext hstream hcount
  have hbody : bodySent [Event.sent h.hState bs] = bs := by
    rw [hstate]
    simp [Event.body]
  obtain ⟨g, hg⟩ : ∃ g, g = (h.logged [.sent h.hState bs]).withData (h.hDataOff + bs.length)
      (h.hDataLen - bs.length) := ⟨_, rfl⟩
  have hadvance : (h.logged [.sent h.hState bs]).httpConnDataRead bs.length = .ok g := by
    rw [hg]
    exact HttpConn.httpConnDataRead_eq (h := h.logged [.sent h.hState bs]) hresp hk
  have hglen : g.hDataLen = h.hDataLen - bs.length := by rw [hg]; rfl
  unfold HttpConn.ioSendfileSent
  rw [hadvance, ok_bind]
  by_cases hlast : g.hDataLen = 0
  · have hall : sent ++ bs = fileSlice (s.roots.file w) ofs len := by
      rw [← hstream', ← hglen, hlast, fileSlice_zero, List.append_nil]
    have hcount : (sent ++ bs).length = len := by omega
    rw [if_pos hlast, ← hf]
    subst hg
    obtain ⟨h', hdone, hproceeds, -⟩ := proceeds_complete (g := h)
      (h := (h.logged [.sent h.hState bs]).withData (h.hDataOff + bs.length) (h.hDataLen - bs.length))
      [.sent h.hState bs] hstate hlast hmask hfd (hd hstate) rfl hbody hall hcount
    exact ⟨h', hdone, hproceeds⟩
  · rw [if_neg hlast]
    subst hg
    refine ⟨_, rfl, [.sent h.hState bs], rfl, Or.inl ⟨by simp, ?_⟩⟩
    rw [hbody]
    refine ⟨hresp, hfd, hread, hw, ?_, ?_, hd, [], ?_, hcount', ?_⟩
    · show h.hDataOff + bs.length + (h.hDataLen - bs.length) = ofs + len
      omega
    · intro hstate'
      have hstate'' : h.hState = .header := hstate'
      rw [hstate] at hstate''
      cases hstate''
    · rw [List.append_nil]
      exact hstream'
    · rw [hf]
      exact ⟨haio, rfl, Nat.pos_of_ne_zero hlast⟩

/-- `io_sendfile_write` sends the next bytes of the file. -/
theorem ioSendfileWrite_spec (hf : s.fio = .sendfile) (hs : Serving s w ofs len h sent)
    (hstate : h.hState = .data) (hmask : h.hNbio.mask ≠ NBIO_DELETED) (send : SendResult) :
    ∃ h' ok, h.ioSendfileWrite s.roots send = .ok (h', ok) ∧
      (ok = true → Proceeds s w ofs len h sent h') ∧ (ok = false → Fails s w ofs len h sent h') := by
  have haio : h.aio = none := by
    obtain ⟨ahead, -, -, hio⟩ := hs.stream
    rw [hf] at hio
    exact hio.1
  unfold HttpConn.ioSendfileWrite
  rw [HttpConn.httpConnData_eq hs.responding hs.webroot]
  simp only [ok_bind]
  cases send with
  | error => exact ⟨h, false, rfl, by simp, fun _ => hs.fails⟩
  | eagain =>
    dsimp only
    rw [HttpConn.httpConnInactive_eq hs.responding]
    refine ⟨_, true, rfl, fun _ => ?_, by simp⟩
    exact (hs.withNbio (by simpa using hs.fd) (by simpa using hs.noRead) haio).proceeds rfl
  | sent n =>
    obtain ⟨bs, hbs⟩ : ∃ bs, bs = fileSlice (s.roots.file w) h.hDataOff
      (min n (min h.hDataLen SENDFILE_CHUNK)) := ⟨_, rfl⟩
    have hnext : bs <+: fileSlice (s.roots.file w) h.hDataOff h.hDataLen := by
      rw [hbs, fileSlice_append (s.roots.file w) h.hDataOff
        (by omega : min n (min h.hDataLen SENDFILE_CHUNK) ≤ h.hDataLen)]
      exact List.prefix_append _ _
    dsimp only
    rw [← hbs]
    by_cases hzero : bs.length = 0
    · rw [if_pos hzero]
      exact ⟨h, false, rfl, by simp, fun _ => hs.fails⟩
    · obtain ⟨h', hsent, hdel⟩ := ioSendfileSent_spec hf hs hstate hmask hnext
      rw [if_neg hzero, hsent]
      exact ⟨h', true, rfl, fun _ => hdel, by simp⟩

/-- A read is put in flight, or nothing is done. -/
theorem aioSubmit_spec (hr : h.Responding) (hw : h.hWebroot = some w) (hlen : h.hDataLen ≠ 0)
    (hmask : h.hNbio.mask ≠ NBIO_DELETED) {buf : HttpBuf} (hpriv : h.hIoPriv = some buf)
    (submit : SubmitResult) :
    h.aioSubmit submit = .ok (h, false) ∨
      h.aioSubmit submit = .ok ((h.withNbio ⟨h.hNbio.fd, 0, 0, .inactive, false⟩).withAio
        (some ⟨buf.bWrite, min h.hDataLen buf.bufWrite, h.hDataOff, w⟩), true) := by
  unfold HttpConn.aioSubmit
  rw [HttpConn.httpConnData_eq hr hw, HttpConn.httpConnGetPriv_eq hr, hpriv]
  simp only [ok_bind]
  rw [if_neg hlen]
  cases submit with
  | oom => exact Or.inl rfl
  | error => exact Or.inl rfl
  | submitted =>
    refine Or.inr ?_
    unfold HttpConn.httpConnToWaitq
    rw [HttpConn.assertResponding_eq hr, HttpConn.nbioSetWait_eq hmask]
    rfl

/-- The end of `io_async_write`, after bytes that are next in the file. -/
theorem ioAsyncSent_spec (hf : s.fio = .async) (hs : Serving s w ofs len h sent)
    (hstate : h.hState = .data) (hmask : h.hNbio.mask ≠ NBIO_DELETED) (hidle : h.aio = none)
    {buf rest : HttpBuf} {bs : Bytes} (hpriv : h.hIoPriv = some buf) (hun : buf.unread = bs ++ rest.unread)
    (hend : rest.bEnd = buf.bEnd) (submit : SubmitResult) :
    ∃ h' ok, (h.logged [.sent h.hState bs]).ioAsyncSent rest bs.length submit = .ok (h', ok) ∧
      (ok = true → Proceeds s w ofs len h sent h') ∧ (ok = false → Fails s w ofs len h sent h') := by
  obtain ⟨hresp, hfd, hread, hw, hb, hh, hd, ahead, hstream, hcount, hio⟩ := hs
  rw [hf] at hio
  obtain ⟨rfl, hpos, buf₀, hpriv₀, hend₀, hflight⟩ := hio
  rw [hpriv] at hpriv₀
  cases hpriv₀
  rw [hidle, hun] at hflight
  have hend' : rest.bEnd = HTTP_DATA_BUFFER := hend.trans hend₀
  have hnext := (List.prefix_append bs rest.unread).trans hflight
  obtain ⟨hk, hstream', hcount'⟩ := fileSlice_advance hnext hstream hcount
  obtain ⟨-, hsplit⟩ := fileSlice_of_prefix hnext
  rw [hsplit, List.prefix_append_right_inj] at hflight
  have hbody : bodySent [Event.sent h.hState bs] = bs := by
    rw [hstate]
    simp [Event.body]
  obtain ⟨g, hg⟩ : ∃ g, g = ((h.logged [.sent h.hState bs]).withPriv (some rest)).withData
      (h.hDataOff + bs.length) (h.hDataLen - bs.length) := ⟨_, rfl⟩
  have hadvance : ((h.logged [.sent h.hState bs]).withPriv (some rest)).httpConnDataRead bs.length =
      .ok g := by
    rw [hg]
    exact HttpConn.httpConnDataRead_eq
      (h := (h.logged [.sent h.hState bs]).withPriv (some rest)) hresp hk
  have hglen : g.hDataLen = h.hDataLen - bs.length := by rw [hg]; rfl
  have hserving : ∀ g' : HttpConn, g'.hState = h.hState → g'.hNbio.fd = true →
      g'.hNbio.mask &&& NBIO_READ = 0 → g'.hWebroot = some w → g'.hRes = h.hRes →
      g'.hDataOff = h.hDataOff + bs.length → g'.hDataLen = h.hDataLen - bs.length →
      s.fio.Holds w (s.roots.file w) g' [] → Serving s w ofs len g' (sent ++ bs) := by
    intro g' h1 h2 h3 h4 h5 h6 h7 h8
    refine ⟨Or.inl (h1.trans hstate), h2, h3, h4, by omega, ?_, fun _ => h5.trans (hd hstate), [], ?_, ?_,
      h8⟩
    · intro hstate'
      rw [h1, hstate] at hstate'
      cases hstate'
    · rw [h6, h7, List.append_nil]
      exact hstream'
    · rw [h7]
      exact hcount'
  unfold HttpConn.ioAsyncSent
  rw [hadvance, ok_bind]
  by_cases hmore : rest.bufRead ≠ 0
  · rw [if_pos hmore]
    refine ⟨g, true, rfl, fun _ => ⟨[.sent h.hState bs], by rw [hg]; rfl, Or.inl ⟨by simp, ?_⟩⟩, by simp⟩
    rw [hbody]
    subst hg
    refine hserving _ rfl hfd hread hw rfl rfl rfl ?_
    rw [hf]
    have hleft : 0 < h.hDataLen - bs.length := by
      have hle := hflight.length_le.trans (fileSlice_length_le _ _ _)
      rw [HttpBuf.unread_length] at hle
      omega
    refine ⟨rfl, hleft, rest, rfl, hend', ?_⟩
    show match h.aio with
      | none => _
      | some iocb => _
    rw [hidle]
    exact hflight
  · rw [if_neg hmore]
    have hempty : rest.unread = [] := rest.unread_eq_nil_iff.mpr (by omega)
    by_cases hleft : g.hDataLen ≠ 0
    · rw [if_pos hleft]
      have hgstate : (g.withPriv (some rest.bufReset)).Responding := by
        rw [hg]
        exact Or.inl hstate
      have hsubmit := aioSubmit_spec (w := w) (h := g.withPriv (some rest.bufReset)) hgstate
        (by rw [hg]; exact hw) hleft (by rw [hg]; exact hmask) rfl submit
      obtain hsubmit | hsubmit := hsubmit
      · refine ⟨_, false, hsubmit, by simp, fun _ => ⟨hgstate, by rw [hg]; exact hfd,
          [.sent h.hState bs], by rw [hg]; rfl, by simp, ?_⟩⟩
        rw [hbody, ← hstream']
        exact List.prefix_append _ _
      · refine ⟨_, true, hsubmit, fun _ => ⟨[.sent h.hState bs], by rw [hg]; rfl, Or.inl ⟨by simp, ?_⟩⟩,
          by simp⟩
        rw [hbody]
        subst hg
        refine hserving _ rfl hfd (by decide : (0 : UInt8) &&& NBIO_READ = 0) hw rfl rfl rfl ?_
        rw [hf]
        obtain ⟨hr1, hr2, hr3, hr4⟩ := rest.bufReset_spec
        refine ⟨rfl, Nat.pos_of_ne_zero hleft, rest.bufReset, rfl, hr2.trans hend', hr1.trans hempty, ?_, rfl,
          rfl, rfl, rfl⟩
        rw [HttpBuf.bufWrite_bufReset, hend', show rest.bufRead = 0 by omega]
        decide
    · rw [if_neg hleft]
      have hlast : g.hDataLen = 0 := by omega
      have hall : sent ++ bs = fileSlice (s.roots.file w) ofs len := by
        rw [← hstream', ← hglen, hlast, fileSlice_zero, List.append_nil]
      have hcount : (sent ++ bs).length = len := by omega
      have hgresp : (g.free (some rest) .data).Responding := by
        rw [hg]
        exact Or.inl hstate
      rw [HttpConn.httpConnSetPriv_eq hgresp, ok_bind, ← hf]
      have hcomplete : ∃ h', ((g.free (some rest) .data).withPriv none).httpConnDataComplete s.fio = .ok h' ∧
          Proceeds s w ofs len h sent h' := by
        subst hg
        obtain ⟨h', hdone, hproceeds, -⟩ := proceeds_complete (g := h)
          (h := ((((h.logged [.sent h.hState bs]).withPriv (some rest)).withData (h.hDataOff + bs.length)
            (h.hDataLen - bs.length)).free (some rest) .data).withPriv none)
          [.sent h.hState bs, .freed .data] hstate hlast hmask hfd (hd hstate) (by simp [HttpConn.free])
          (by rw [hstate]; simp [Event.body]) hall hcount
        exact ⟨h', hdone, hproceeds⟩
      obtain ⟨h', hcomplete, hdel⟩ := hcomplete
      rw [hcomplete]
      exact ⟨h', true, rfl, fun _ => hdel, by simp⟩

/-- `io_async_write` sends from the buffer, and fills it again when it is empty. -/
theorem ioAsyncWrite_spec (hf : s.fio = .async) (hs : Serving s w ofs len h sent)
    (hstate : h.hState = .data) (hmask : h.hNbio.mask ≠ NBIO_DELETED) (hidle : h.aio = none)
    (send : SendResult) (submit : SubmitResult) :
    ∃ h' ok, h.ioAsyncWrite send submit = .ok (h', ok) ∧
      (ok = true → Proceeds s w ofs len h sent h') ∧ (ok = false → Fails s w ofs len h sent h') := by
  have hpriv : ∃ buf, h.hIoPriv = some buf := by
    obtain ⟨ahead, -, -, hio⟩ := hs.stream
    rw [hf] at hio
    obtain ⟨-, -, buf, hpriv, -⟩ := hio
    exact ⟨buf, hpriv⟩
  obtain ⟨buf, hpriv⟩ := hpriv
  unfold HttpConn.ioAsyncWrite
  rw [HttpConn.httpConnGetPriv_eq hs.responding, hpriv]
  simp only [deref, ok_bind]
  cases send with
  | error => exact ⟨h, false, rfl, by simp, fun _ => hs.fails⟩
  | eagain =>
    dsimp only
    rw [HttpConn.httpConnInactive_eq hs.responding]
    refine ⟨_, true, rfl, fun _ => ?_, by simp⟩
    exact (hs.withNbio (by simpa using hs.fd) (by simpa using hs.noRead) hidle).proceeds rfl
  | sent n =>
    obtain ⟨k, hk⟩ : ∃ k, k = min n buf.bufRead := ⟨_, rfl⟩
    dsimp only
    rw [← hk]
    by_cases hzero : k = 0
    · rw [if_pos hzero]
      exact ⟨h, false, rfl, by simp, fun _ => hs.fails⟩
    · obtain ⟨rest, hdone, hun, hend, -, -⟩ := buf.bufDoneRead_spec (by omega : k ≤ buf.bufRead)
      have hlen : (buf.unread.take k).length = k := by
        rw [List.length_take, HttpBuf.unread_length]
        omega
      have hsent := ioAsyncSent_spec hf hs hstate hmask hidle hpriv hun hend submit
      rw [hlen] at hsent
      rw [if_neg hzero, hdone, ok_bind]
      exact hsent

end

end Ashttpd
