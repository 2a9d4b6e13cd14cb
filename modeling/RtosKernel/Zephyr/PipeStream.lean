import RtosKernel.Zephyr.PipeBuffer

/-! # What copying does to a pipe and to the calls

Bytes move by three ways: from a writer to a reader, from a writer to the buffer, and from the buffer to a
reader. -/

namespace RtosKernel.Zephyr.Pipes
open Lib.Window Zephyr.WaitQ List

variable {T : Type} [dT : DecidableEq T] {s s' s₁ : System T} {t u : T} {r : Request} {c : Call} {data : Nat → UInt8}
  {bs : List UInt8} {writer reader : T}

/-! ## What a call has moved -/

/-- What a call has moved is the first part of its data, and the rest of a reader's data is as it was. -/
structure Request.Ok (s : System T) (t : T) (r : Request) : Prop where
  sum : r.pipeDesc.buffer + r.pipeDesc.bytesToXfer = r.bytes
  min_le : r.minXfer ≤ r.bytes
  mark_le : r.mark ≤ (s.log r.call).length
  moved : s.moved t r = bytesAt r.data 0 r.pipeDesc.buffer
  outside : ∀ i, r.call = .put ∨ r.pipeDesc.buffer ≤ i → r.data i = r.before i

theorem Request.Ok.congr (h : r.Ok s t) (hlog : s'.log = s.log) : r.Ok s' t where
  sum := h.sum
  min_le := h.min_le
  mark_le := by rw [hlog]; exact h.mark_le
  moved := by rw [System.moved, hlog]; exact h.moved
  outside := h.outside

theorem newRequest_ok {bytes minXfer : Nat} {timeout : KTimeout} (hmin : minXfer ≤ bytes) :
    (s.newRequest c data bytes minXfer timeout).Ok s t where
  sum := Nat.zero_add _
  min_le := hmin
  mark_le := le_refl _
  moved := by simp [System.moved, System.newRequest]
  outside _ _ := rfl

theorem filter_tagged : ((bs.map (t, ·)).filter (·.1 = u)).map (·.2) = if t = u then bs else [] := by
  by_cases h : t = u
  · rw [if_pos h, List.filter_eq_self.mpr (by simpa using fun _ _ => h)]
    simp
  · rw [if_neg h, filter_eq_nil_iff.mpr (by simpa using fun _ _ => h)]
    rfl

omit dT in
@[simp] theorem tagged_bytes : (bs.map (t, ·)).map (·.2) = bs := by
  simp

theorem log_advance_self (h : (s.request t).call = c) : (s.advance t data bs).log c = s.log c ++ bs.map (t, ·) := by
  simp [System.advance, h]

theorem log_advance_other (h : c ≠ (s.request t).call) : (s.advance t data bs).log c = s.log c := by
  simp [System.advance, h]

theorem moved_advance (h : r.mark ≤ (s.log r.call).length) : (s.advance t data bs).moved u r =
    s.moved u r ++ if t = u ∧ r.call = (s.request t).call then bs else [] := by
  by_cases hc : r.call = (s.request t).call
  · rw [System.moved, hc, log_advance_self rfl, drop_append_of_le_length (hc ▸ h), filter_append,
      map_append, filter_tagged, System.moved, hc]
    simp
  · rw [System.moved, log_advance_other hc, if_neg fun h => hc h.2, List.append_nil]
    rfl

theorem Request.Ok.advance_other (h : r.Ok s u) (hne : t ≠ u) : r.Ok (s.advance t data bs) u where
  sum := h.sum
  min_le := h.min_le
  mark_le := by
    by_cases hc : r.call = (s.request t).call
    · rw [hc, log_advance_self rfl, length_append, ← hc]
      exact h.mark_le.trans (Nat.le_add_right ..)
    · rw [log_advance_other hc]
      exact h.mark_le
  moved := by
    rw [moved_advance h.mark_le, if_neg fun h => hne h.1, List.append_nil, h.moved]
  outside := h.outside

@[simp] theorem request_advance_self : (s.advance t data bs).request t =
    { s.request t with
        data
        pipeDesc :=
          { buffer := (s.request t).pipeDesc.buffer + bs.length
            bytesToXfer := (s.request t).pipeDesc.bytesToXfer - bs.length } } := by
  simp [System.advance]

theorem request_advance_other (h : u ≠ t) : (s.advance t data bs).request u = s.request u := by
  simp [System.advance, h]

theorem Request.Ok.advance_self (h : (s.request t).Ok s t) (hlen : bs.length ≤ s.need t)
    (hdata : Copied (s.request t).data data (s.request t).pipeDesc.buffer bs)
    (hput : (s.request t).call = .put → data = (s.request t).data) :
    ((s.advance t data bs).request t).Ok (s.advance t data bs) t := by
  rw [request_advance_self]
  have hsum := h.sum
  have hneed : s.need t = (s.request t).pipeDesc.bytesToXfer := rfl
  constructor
  · show (s.request t).pipeDesc.buffer + bs.length + ((s.request t).pipeDesc.bytesToXfer - bs.length) =
      (s.request t).bytes
    omega
  · exact h.min_le
  · show (s.request t).mark ≤ ((s.advance t data bs).log (s.request t).call).length
    rw [log_advance_self rfl, length_append]
    exact h.mark_le.trans (Nat.le_add_right ..)
  · refine (moved_advance (r := s.request t) h.mark_le).trans ?_
    show _ = bytesAt data 0 ((s.request t).pipeDesc.buffer + bs.length)
    rw [if_pos ⟨rfl, rfl⟩, h.moved, bytesAt_add, Nat.zero_add, hdata.bytes,
      bytesAt_congr fun i _ hi => hdata.outside i (.inl (by omega))]
  · intro i hi
    obtain hcall | hle := hi
    · show data i = (s.request t).before i
      rw [hput hcall]
      exact h.outside i (.inl hcall)
    · have hle : (s.request t).pipeDesc.buffer + bs.length ≤ i := hle
      show data i = (s.request t).before i
      rw [hdata.outside i (.inr hle)]
      exact h.outside i (.inr (by omega))

/-! ## Systems whose bytes are accounted for -/

/-- A call that has returned stored how much it moved, and returned 0 exactly if that was enough. -/
structure Returned.Ok (x : Returned T) : Prop where
  stored : ∀ n, x.stored = some n → n ≤ x.request.bytes ∧ x.moved = bytesAt x.request.data 0 n ∧
    ∀ i, x.request.call = .put ∨ n ≤ i → x.request.data i = x.request.before i
  unstored : x.stored = none → x.moved = [] ∧ x.request.data = x.request.before ∧ x.ret = einval
  ret_eq_zero : x.ret = 0 ↔ x.request.minXfer ≤ x.moved.length
  noWait : x.ret = eio → x.request.timeout = .noWait

structure Sound (s : System T) : Prop where
  ring : Ring s.pipe
  stream : (s.log .put).map (·.2) = (s.log .get).map (·.2) ++ s.pipe.contents
  calls : ∀ t, s.phase t ≠ .idle → (s.request t).Ok s t
  results : ∀ x ∈ s.results, x.Ok

/-- A thread is in a call of kind `c`. -/
def Busy (s : System T) (c : Call) (t : T) : Prop := s.phase t ≠ .idle ∧ (s.request t).call = c

/-- A thread is in a call of kind `c`, and does not wait. -/
def Active (s : System T) (c : Call) (t : T) : Prop := Busy s c t ∧ s.phase t ≠ .pending

omit dT in
theorem Busy.ne (h : Busy s .put t) (h' : Busy s .get u) : t ≠ u := by
  rintro rfl
  have := h.2.symm.trans h'.2
  cases this

structure Frame (s s' : System T) : Prop where
  size : s'.pipe.size = s.pipe.size
  waitQ : s'.pipe.waitQ = s.pipe.waitQ
  prio : s'.prio = s.prio
  results : s'.results = s.results
  call : ∀ t, (s'.request t).call = (s.request t).call
  idle : ∀ t, s'.phase t = .idle ↔ s.phase t = .idle
  pending : ∀ t, s'.phase t = .pending ↔ s.phase t = .pending

section
omit dT

theorem Frame.refl : Frame s s := ⟨rfl, rfl, rfl, rfl, fun _ => rfl, fun _ => Iff.rfl, fun _ => Iff.rfl⟩

theorem Frame.trans (h : Frame s s₁) (h' : Frame s₁ s') : Frame s s' where
  size := h'.size.trans h.size
  waitQ := h'.waitQ.trans h.waitQ
  prio := h'.prio.trans h.prio
  results := h'.results.trans h.results
  call t := (h'.call t).trans (h.call t)
  idle t := (h'.idle t).trans (h.idle t)
  pending t := (h'.pending t).trans (h.pending t)

theorem Frame.busy (h : Frame s s') (hb : Busy s c t) : Busy s' c t :=
  ⟨fun hidle => hb.1 ((h.idle t).mp hidle), (h.call t).trans hb.2⟩

theorem Frame.active (h : Frame s s') (ha : Active s c t) : Active s' c t :=
  ⟨h.busy ha.1, fun hp => ha.2 ((h.pending t).mp hp)⟩

end

theorem frame_advance : Frame s (s.advance t data bs) where
  size := rfl
  waitQ := rfl
  prio := rfl
  results := rfl
  call u := by
    by_cases h : u = t
    · subst h
      rw [request_advance_self]
    · rw [request_advance_other h]
  idle _ := Iff.rfl
  pending _ := Iff.rfl

theorem Sound.congr (h : Sound s) (hring : Ring s'.pipe) (hcontents : s'.pipe.contents = s.pipe.contents)
    (hlog : s'.log = s.log) (hresults : s'.results = s.results)
    (hcalls : ∀ t, s'.phase t ≠ .idle → (s'.request t).Ok s t) : Sound s' where
  ring := hring
  stream := by rw [hlog, hcontents]; exact h.stream
  calls t ht := (hcalls t ht).congr hlog
  results := by rw [hresults]; exact h.results

theorem Sound.zReadyThread (h : Sound s) (ht : s.phase t ≠ .idle) : Sound (s.zReadyThread t) := by
  refine h.congr h.ring rfl rfl rfl fun u hu => ?_
  refine h.calls u ?_
  by_cases heq : u = t
  · subst heq
    exact ht
  · simpa [System.zReadyThread, System.setPhase, heq] using hu

theorem Active.frame_zReadyThread (h : Active s c t) : Frame s (s.zReadyThread t) where
  size := rfl
  waitQ := rfl
  prio := rfl
  results := rfl
  call _ := rfl
  idle u := by
    by_cases heq : u = t
    · subst heq
      simpa [System.zReadyThread, System.setPhase] using h.1.1
    · simp [System.zReadyThread, System.setPhase, heq]
  pending u := by
    by_cases heq : u = t
    · subst heq
      simpa [System.zReadyThread, System.setPhase] using h.2
    · simp [System.zReadyThread, System.setPhase, heq]

/-! ## From a writer to the buffer -/

theorem need_advance_self : (s.advance t data bs).need t = s.need t - bs.length := by
  rw [System.need, request_advance_self]
  rfl

theorem need_advance_other (h : u ≠ t) : (s.advance t data bs).need u = s.need u := by
  rw [System.need, request_advance_other h]
  rfl

theorem copied_bytesAt {mem : Nat → UInt8} {off n : Nat} : Copied mem mem off (bytesAt mem off n) :=
  ⟨by rw [length_bytesAt], fun _ _ => rfl⟩

theorem calls_advance (h : ∀ t, s.phase t ≠ .idle → (s.request t).Ok s t) (hlen : bs.length ≤ s.need t) (ht : s.phase t ≠ .idle)
    (hdata : Copied (s.request t).data data (s.request t).pipeDesc.buffer bs)
    (hput : (s.request t).call = .put → data = (s.request t).data) (hu : s.phase u ≠ .idle) :
    ((s.advance t data bs).request u).Ok (s.advance t data bs) u := by
  by_cases heq : u = t
  · subst heq
    exact (h u ht).advance_self hlen hdata hput
  · rw [request_advance_other heq]
    exact (h u hu).advance_other (Ne.symm heq)

theorem bufferPut_spec (h : Sound s) (hw : Busy s .put writer) :
    Sound (s.bufferPut writer) ∧ Frame s (s.bufferPut writer) ∧
      (s.bufferPut writer).pipe.bytesUsed = min s.pipe.size (s.pipe.bytesUsed + s.need writer) ∧
      (s.bufferPut writer).need writer = s.need writer - (s.pipe.size - s.pipe.bytesUsed) ∧
      ∀ u, u ≠ writer → (s.bufferPut writer).need u = s.need u := by
  obtain ⟨hputs, hn⟩ := pipeBufferPut_spec (s.request writer).data (s.request writer).pipeDesc.buffer
    (s.need writer) h.ring
  have hgo : s.bufferPut writer = { s with
      pipe := (pipeBufferPut s.pipe (s.request writer).data (s.request writer).pipeDesc.buffer (s.need writer)).1
    }.advance writer (s.request writer).data (bytesAt (s.request writer).data (s.request writer).pipeDesc.buffer
      (pipeBufferPut s.pipe (s.request writer).data (s.request writer).pipeDesc.buffer (s.need writer)).2) := rfl
  obtain ⟨⟨p, n⟩, hput⟩ : ∃ x, pipeBufferPut s.pipe (s.request writer).data (s.request writer).pipeDesc.buffer
    (s.need writer) = x := ⟨_, rfl⟩
  rw [hput] at hputs hn hgo
  dsimp only at hputs hn hgo
  rw [hgo]
  have hused := hputs.used
  rw [length_bytesAt] at hused
  have hle := h.ring.used_le
  have hframe : Frame s { s with pipe := p } :=
    ⟨hputs.size, hputs.waitQ, rfl, rfl, fun _ => rfl, fun _ => Iff.rfl, fun _ => Iff.rfl⟩
  refine ⟨?_, hframe.trans frame_advance, ?_, ?_, fun u hu => need_advance_other hu⟩
  · constructor
    · exact hputs.ring
    · have hcall : (({ s with pipe := p } : System T).request writer).call = .put := hw.2
      rw [log_advance_self hcall, log_advance_other (by rw [hcall]; decide), map_append, tagged_bytes]
      show (s.log .put).map (·.2) ++ _ = (s.log .get).map (·.2) ++ p.contents
      rw [h.stream, hputs.contents, append_assoc]
    · intro u hu
      have hlen : (bytesAt (s.request writer).data (s.request writer).pipeDesc.buffer n).length ≤ s.need writer := by
        rw [length_bytesAt]
        omega
      exact (calls_advance h.calls hlen hw.1 copied_bytesAt (fun _ => rfl) hu).congr rfl
    · exact h.results
  · show p.bytesUsed = _
    omega
  · rw [need_advance_self, length_bytesAt]
    show s.need writer - _ = _
    omega

/-! ## From the buffer to a reader -/

theorem bufferGet_spec (h : Sound s) (hr : Busy s .get reader) :
    Sound (s.bufferGet reader) ∧ Frame s (s.bufferGet reader) ∧
      (s.bufferGet reader).pipe.bytesUsed = s.pipe.bytesUsed - s.need reader ∧
      (s.bufferGet reader).need reader = s.need reader - s.pipe.bytesUsed ∧
      ∀ u, u ≠ reader → (s.bufferGet reader).need u = s.need u := by
  obtain ⟨bs, hgets, hcopy, hn, hlen⟩ := pipeBufferGet_spec (s.request reader).data
    (s.request reader).pipeDesc.buffer (s.need reader) h.ring
  obtain ⟨⟨p, data, n⟩, hget⟩ : ∃ x, pipeBufferGet s.pipe (s.request reader).data (s.request reader).pipeDesc.buffer
    (s.need reader) = x := ⟨_, rfl⟩
  rw [hget] at hgets hcopy hn
  dsimp only at hgets hcopy hn
  subst hn
  have hgo : s.bufferGet reader = { s with pipe := p }.advance reader data bs := by
    have hdef : s.bufferGet reader = { s with
        pipe := (pipeBufferGet s.pipe (s.request reader).data (s.request reader).pipeDesc.buffer (s.need reader)).1
      }.advance reader
        (pipeBufferGet s.pipe (s.request reader).data (s.request reader).pipeDesc.buffer (s.need reader)).2.1
        (bytesAt (pipeBufferGet s.pipe (s.request reader).data (s.request reader).pipeDesc.buffer (s.need reader)).2.1
          (s.request reader).pipeDesc.buffer
          (pipeBufferGet s.pipe (s.request reader).data (s.request reader).pipeDesc.buffer
            (s.need reader)).2.2) := rfl
    rw [hdef, hget]
    rw [hcopy.bytes]
  rw [hgo]
  have hused := hgets.used
  have hframe : Frame s { s with pipe := p } :=
    ⟨hgets.size, hgets.waitQ, rfl, rfl, fun _ => rfl, fun _ => Iff.rfl, fun _ => Iff.rfl⟩
  refine ⟨?_, hframe.trans frame_advance, ?_, ?_, fun u hu => need_advance_other hu⟩
  · constructor
    · exact hgets.ring
    · have hcall : (({ s with pipe := p } : System T).request reader).call = .get := hr.2
      rw [log_advance_self hcall, log_advance_other (by rw [hcall]; decide), map_append, tagged_bytes]
      show (s.log .put).map (·.2) = (s.log .get).map (·.2) ++ bs ++ p.contents
      rw [h.stream, hgets.contents, append_assoc]
    · intro u hu
      refine (calls_advance h.calls (by omega) hr.1 hcopy (fun hput => ?_) hu).congr rfl
      rw [hr.2] at hput
      cases hput
    · exact h.results
  · show p.bytesUsed = _
    omega
  · rw [need_advance_self]
    show s.need reader - _ = _
    omega

/-! ## From a writer to a reader -/

theorem xfer_spec (h : Sound s) (hw : Busy s .put writer) (hr : Busy s .get reader)
    (hempty : s.need reader = 0 ∨ s.pipe.bytesUsed = 0) :
    Sound (s.xfer writer reader) ∧ Frame s (s.xfer writer reader) ∧ (s.xfer writer reader).pipe = s.pipe ∧
      (s.xfer writer reader).need reader = s.need reader - s.need writer ∧
      (s.xfer writer reader).need writer = s.need writer - s.need reader ∧
      ∀ u, u ≠ writer → u ≠ reader → (s.xfer writer reader).need u = s.need u := by
  obtain ⟨n, hn⟩ : ∃ n, n = min (s.need reader) (s.need writer) := ⟨_, rfl⟩
  obtain ⟨bs, hbs⟩ : ∃ bs, bs = bytesAt (s.request writer).data (s.request writer).pipeDesc.buffer n := ⟨_, rfl⟩
  have hlen : bs.length = n := by
    rw [hbs, length_bytesAt]
  have hne := hw.ne hr
  obtain ⟨s₁, hs₁⟩ : ∃ s₁, s₁ = s.advance writer (s.request writer).data bs := ⟨_, rfl⟩
  have hreq : s₁.request reader = s.request reader := by
    rw [hs₁, request_advance_other (Ne.symm hne)]
  have hgo : s.xfer writer reader = s₁.advance reader
      (memcpy (s₁.request reader).data (s₁.request reader).pipeDesc.buffer bs) bs := by
    rw [hreq, hs₁, hbs, hn]
    rfl
  have hneed : s₁.need reader = s.need reader := congrArg (·.pipeDesc.bytesToXfer) hreq
  have hcopy : Copied (s.request writer).data (s.request writer).data (s.request writer).pipeDesc.buffer bs := by
    rw [hbs]
    exact copied_bytesAt
  have hcalls : ∀ u, s₁.phase u ≠ .idle → (s₁.request u).Ok s₁ u := by
    subst hs₁
    exact fun u => calls_advance h.calls (by omega) hw.1 hcopy fun _ => rfl
  rw [hgo]
  have hframe : Frame s s₁ := by
    rw [hs₁]
    exact frame_advance
  refine ⟨?_, hframe.trans frame_advance, ?_, ?_, ?_, fun u huw hur => ?_⟩
  · constructor
    · rw [hs₁]
      exact h.ring
    · have hput : s₁.log .put = s.log .put ++ bs.map (writer, ·) := by
        rw [hs₁, log_advance_self hw.2]
      have hget : s₁.log .get = s.log .get := by
        rw [hs₁, log_advance_other (by rw [hw.2]; decide)]
      have hcall : (s₁.request reader).call = .get := by rw [hreq, hr.2]
      rw [log_advance_self hcall, log_advance_other (by rw [hcall]; decide), hput, hget, map_append, map_append,
        tagged_bytes, tagged_bytes, h.stream]
      have hpipe : (s₁.advance reader (memcpy (s₁.request reader).data (s₁.request reader).pipeDesc.buffer bs) bs).pipe =
          s.pipe := by
        rw [hs₁]
        rfl
      rw [hpipe]
      obtain hzero | hzero := hempty
      · have : bs = [] := eq_nil_of_length_eq_zero (by omega)
        rw [this, List.append_nil, List.append_nil]
      · have : s.pipe.contents = [] := eq_nil_of_length_eq_zero (by rw [length_contents, hzero])
        rw [this, List.append_nil, List.append_nil]
    · intro u hu
      refine calls_advance hcalls (by omega) ?_ copied_memcpy (fun hput => ?_) hu
      · rw [Ne, hframe.idle]
        exact hr.1
      · rw [hreq, hr.2] at hput
        cases hput
    · rw [hs₁]
      exact h.results
  · rw [hs₁]
    rfl
  · rw [need_advance_self, hneed]
    omega
  · rw [need_advance_other hne, hs₁, need_advance_self]
    omega
  · rw [need_advance_other hur, hs₁, need_advance_other huw]

end RtosKernel.Zephyr.Pipes
