import Ashttpd.BodyRuns

/-!
# Responses of the synchronous model

`io_sync_write` tops the buffer up whenever there is room in it. If nothing is left to be read by
then, it asks for no bytes, and takes getting none for the end of the file: the connection is killed
with bytes in the buffer. This is the only way in which a response that the system does not let down
is cut off.
-/
namespace Ashttpd

variable {s : Server} {w ofs len : ℕ} {h h' : HttpConn} {sent : Bytes}

instance (h : HttpConn) : Decidable (Starved h) :=
  inferInstanceAs (Decidable (_ ∧ ∃ buf ∈ h.hIoPriv, buf.bufWrite ≠ 0))

instance (h : HttpConn) (e : HttpConn.Happening) : Decidable (e.Stalls h) :=
  match e with
  | .write _ => inferInstanceAs (Decidable (_ ∧ Starved h))
  | .ready _ | .read _ | .error | .completion _ => inferInstanceAs (Decidable False)

instance (e : HttpConn.Happening) : Decidable e.Fails :=
  match e with
  | .write o => inferInstanceAs (Decidable (PreadResult.error ∈ o.preads ∨ _ ∨ _))
  | .ready _ | .read _ | .error | .completion _ => inferInstanceAs (Decidable False)

theorem fdPread_zero (file : Bytes) (rs : List PreadResult) (off : ℕ) (bs : Bytes) :
    fdPread file rs off 0 ≠ some (bs, false) := by
  induction rs with
  | nil => simp [fdPread, fileSlice_zero]
  | cons p rs ih =>
    cases p with
    | eintr => exact ih
    | eagain => exact ih
    | error => simp [fdPread]
    | read n => simp [fdPread, fileSlice_zero]

/-- With nothing to read and room in the buffer, `io_sync_write` returns zero. -/
theorem ioSyncWrite_starved (hs : Serving s w ofs len h sent) (hstarved : Starved h)
    (preads : List PreadResult) (send : SendResult) :
    h.ioSyncWrite s.roots preads send = .ok (h, false) := by
  obtain ⟨hlen, buf, hpriv, hroom⟩ := hstarved
  have htop : h.ioSyncTopUp s.roots preads = .ok none := by
    unfold HttpConn.ioSyncTopUp
    rw [HttpConn.httpConnGetPriv_eq hs.responding, ok_bind, hpriv,
      HttpConn.httpConnData_eq hs.responding hs.webroot]
    simp only [deref, ok_bind]
    rw [if_neg hroom, hlen, Nat.min_zero]
    have hzero := fdPread_zero (s.roots.file w) preads h.hDataOff
    cases hres : fdPread (s.roots.file w) preads h.hDataOff 0 with
    | none => rfl
    | some res =>
      obtain ⟨bs, eof⟩ := res
      cases eof with
      | true => rfl
      | false => exact absurd hres (hzero bs)
  unfold HttpConn.ioSyncWrite
  rw [htop]
  rfl

theorem called_mask {flag : UInt8} (hcalled : h.Called flag) (hflag : NBIO_DELETED &&& flag = 0) :
    h.hNbio.mask ≠ NBIO_DELETED := by
  intro hdel
  have hflags := hcalled.2
  rw [hdel, UInt8.and_assoc, hflag, UInt8.and_zero] at hflags
  exact hflags rfl

/-- A response of which the file has all bytes is cut off only if the system lets it down, in every
run in which no write callback finds nothing to read and room in the buffer. Elsewhere such a callback
is what `io_sync_write` gives up for; otherwise it sends something unless the socket is full. -/
theorem sync_killed_only_for_failure {h₀ h₁ h₂ h₃ : HttpConn} {block : Option Mem} {submit : SubmitResult}
    {g : GetHeader} {hlen : ℕ} {es : List HttpConn.Happening} (hf : s.fio = .sync)
    (hpres : ofs + len ≤ (s.roots.file w).length) (hh : Handed ofs len h₀)
    (hprep : h₀.ioPrep s.fio block submit = .ok (h₁, true))
    (hqueue : h₁.queueHeader w false g = .ok h₂) (hfinish : h₂.finishRequest hlen = .ok h₃)
    (hrun : GuardedRun (HttpConn.Steps s) (fun h e => h.Responding ∧ ¬ e.Stalls h) h₃ es h) :
    ∃ new, h.log = h₃.log ++ new ∧
      (¬ h.Responding → Event.complete ∈ new ∨ ∃ e ∈ es, e.Fails) ∧
      (Event.complete ∈ new → bodySent new = fileSlice (s.roots.file w) ofs len) ∧
      (h.hState = .data → h.Called NBIO_WRITE → ∀ o : HttpConn.WriteResults, ∃ h' ok,
        h.ioSyncWrite s.roots o.preads o.send = .ok (h', ok) ∧
        (ok = false → Starved h ∨ o.Fail) ∧ (Starved h → ok = false) ∧
        (ok = true → o.send ≠ .eagain → ∃ bs ≠ [], h.log ++ [.sent .data bs] <+: h'.log)) := by
  have hserving : Serving s w ofs len h₃ [] :=
    (serving_queued hh (by simp [hf]) hprep hqueue).finishRequest hfinish
  have hcourse : Course s w ofs len h₃ (∃ e ∈ es, e.Fails) h := by
    refine hrun.invariant (I := fun es h => Course s w ofs len h₃ (∃ e ∈ es, e.Fails) h) ?_
      (Course.start hserving _)
    intro es h e h' hc ⟨hr, hstalls⟩ hstep
    refine hc.step hr hstep fun hcause => ?_
    obtain hstall | hfails := hcause hf hpres
    · exact absurd hstall hstalls
    · exact ⟨e, by simp, hfails⟩
  obtain ⟨new, hlog, ⟨hcomplete, hs⟩ | ⟨hidle, hcomplete, hall, -⟩ | ⟨hidle, hcomplete, -, hfails⟩⟩ := hcourse
  · refine ⟨new, hlog, fun hidle => absurd hs.responding hidle, fun hmem => absurd hmem hcomplete, ?_⟩
    intro hstate hcalled o
    obtain ⟨h', ok, hwrite, htrue, hfalse⟩ :=
      ioSyncWrite_spec hf hs hstate (called_mask hcalled (by decide)) o.preads o.send
    refine ⟨h', ok, hwrite, fun hok => (hfalse hok).2 hpres, fun hstarved => ?_, fun hok => (htrue hok).2⟩
    rw [ioSyncWrite_starved hs hstarved] at hwrite
    cases hwrite
    rfl
  · refine ⟨new, hlog, fun _ => Or.inl hcomplete, fun _ => hall, fun hstate => ?_⟩
    exact absurd (Or.inl hstate) hidle
  · refine ⟨new, hlog, fun _ => Or.inr hfails, fun hmem => absurd hmem hcomplete, fun hstate => ?_⟩
    exact absurd (Or.inl hstate) hidle

def inOnePiece : List HttpConn.Happening :=
  [.write ⟨.sent 2048, [], .submitted⟩, .write ⟨.sent 2, [.read 0], .submitted⟩]

theorem sync_killed_only_for_failure_twoBytes : ∃ h₃ h, twoByteStart .sync = .ok h₃ ∧
    GuardedRun (HttpConn.Steps (twoByteServer .sync)) (fun h e => h.Responding ∧ ¬ e.Stalls h) h₃ inOnePiece
      h ∧
    Event.complete ∈ h.log ∧ ∃ new, h.log = h₃.log ++ new ∧
      (Event.complete ∈ new → bodySent new = ascii "hi") := by
  have hall : (twoByteStart .sync).toOption.any (fun h₃ =>
      (play (HttpConn.next (twoByteServer .sync)) (fun h e => h.Responding ∧ ¬ e.Stalls h) h₃ inOnePiece).any
        fun h => Event.complete ∈ h.log) = true := by
    decide +kernel
  obtain ⟨h₃, hstart, hplay⟩ := exists_of_any hall
  obtain ⟨h, hplay, hcomplete⟩ := (Option.any_eq_true _ _).mp hplay
  have hrun := guardedRun_of_play (fun _ _ _ => HttpConn.steps_of_next) hplay
  refine ⟨h₃, h, hstart, hrun, of_decide_eq_true hcomplete, ?_⟩
  obtain ⟨h₁, h₂, hprep, hqueue, hfinish⟩ := twoByteStart_ok hstart
  obtain ⟨new, hlog, -, hsent, -⟩ := sync_killed_only_for_failure (s := twoByteServer .sync) (w := 0) rfl
    (by decide) twoByteConn_handed hprep hqueue hfinish hrun
  exact ⟨new, hlog, hsent⟩

def inTwoPieces : List HttpConn.Happening :=
  [.write ⟨.sent 2048, [], .submitted⟩, .write ⟨.sent 1, [], .submitted⟩, .write ⟨.sent 1, [], .submitted⟩]

/-- The second byte of two is not sent, although nothing fails. -/
theorem sync_killed_without_failure : ∃ h₃ h, twoByteStart .sync = .ok h₃ ∧
    GuardedRun (HttpConn.Steps (twoByteServer .sync)) (fun h _ => h.Responding) h₃ inTwoPieces h ∧
    (∀ e ∈ inTwoPieces, ¬ e.Fails) ∧ h.hState = .dead ∧ Event.complete ∉ h.log ∧
    bodySent h.log = ascii "h" := by
  have hall : (twoByteStart .sync).toOption.any (fun h₃ =>
      (play (HttpConn.next (twoByteServer .sync)) (fun h _ => h.Responding) h₃ inTwoPieces).any
        fun h => h.hState = .dead ∧ Event.complete ∉ h.log ∧ bodySent h.log = ascii "h") = true := by
    decide +kernel
  obtain ⟨h₃, hstart, hplay⟩ := exists_of_any hall
  obtain ⟨h, hplay, hend⟩ := (Option.any_eq_true _ _).mp hplay
  refine ⟨h₃, h, hstart, guardedRun_of_play (fun _ _ _ => HttpConn.steps_of_next) hplay, by decide, ?_⟩
  exact of_decide_eq_true hend

end Ashttpd
