import Daloy.WebSocket.FrameSink

/-! # The two buffers of a `FrameSink`

What the growing input buffer (`append`) and the growing message buffer (`appendFragment`) hold.
No byte is lost, duplicated or reordered on any of their growth paths, and no `set` is ever out of
range.
-/

namespace Daloy.WebSocket
set_option autoImplicit false

theorem exists_setBytes (dst src : Bytes) (pos : ℕ) (h : pos + src.length ≤ dst.length) :
    ∃ out, setBytes dst pos src = some out :=
  ⟨_, if_pos h⟩

theorem setBytes_length {dst src out : Bytes} {pos : ℕ} (h : setBytes dst pos src = some out) :
    out.length = dst.length := by
  unfold setBytes at h
  split at h
  · next hle =>
    obtain rfl := Option.some.inj h
    simp only [List.length_append, List.length_take, List.length_drop]
    omega
  · simp at h

theorem setBytes_take {dst src out : Bytes} {pos : ℕ} (h : setBytes dst pos src = some out) :
    out.take (pos + src.length) = dst.take pos ++ src := by
  unfold setBytes at h
  split at h
  · next hle =>
    obtain rfl := Option.some.inj h
    rw [List.take_left' (by rw [List.length_append, List.length_take]; omega)]
  · simp at h

theorem take_drop_eq_drop_take (xs : Bytes) (off len : ℕ) :
    (xs.drop off).take len = (xs.take (off + len)).drop off := by
  rw [List.drop_take, Nat.add_sub_cancel_left]

namespace FrameSink

def InRange (sink : FrameSink) : Prop := sink.off + sink.len ≤ sink.buf.length

theorem pending_length {sink : FrameSink} (h : sink.InRange) : sink.pending.length = sink.len := by
  unfold pending
  rw [List.length_take, List.length_drop]
  unfold InRange at h
  omega

theorem makeRoom_spec {sink : FrameSink} (h : sink.InRange) (need : ℕ) (hneed : sink.len ≤ need) :
    ∃ buf off, sink.makeRoom need = some { sink with buf := buf, off := off } ∧
      off + need ≤ buf.length ∧ (buf.drop off).take sink.len = sink.pending := by
  have hlen := pending_length h
  unfold makeRoom
  split
  · next hfull =>
    split
    · next hcompact =>
      refine ⟨_, 0, rfl, ?_, ?_⟩
      · rw [List.length_append, List.length_drop, hlen]; omega
      · rw [List.drop_zero, ← hlen, List.take_left']
        rfl
    · have hfits : 0 + sink.pending.length ≤
          (List.replicate (max need (sink.buf.length * 2)) (0 : UInt8)).length := by
        rw [List.length_replicate, hlen]; omega
      obtain ⟨next, hset⟩ := exists_setBytes _ _ _ hfits
      have hnext := setBytes_length hset
      have hcopied := setBytes_take hset
      rw [Nat.zero_add, hlen, List.take_zero, List.nil_append] at hcopied
      rw [List.length_replicate] at hnext
      exact ⟨next, 0, by rw [hset]; rfl, by omega, by rw [List.drop_zero, hcopied]⟩
  · next hfits => exact ⟨sink.buf, sink.off, rfl, by omega, rfl⟩

theorem append_spec {sink : FrameSink} (h : sink.InRange) (chunk : Bytes) :
    ∃ buf off, sink.append chunk =
        some { sink with buf := buf, off := off, len := sink.len + chunk.length } ∧
      off + (sink.len + chunk.length) ≤ buf.length ∧
      (buf.drop off).take (sink.len + chunk.length) = sink.pending ++ chunk := by
  obtain ⟨buf, off, hroom, hfits, hsame⟩ :=
    makeRoom_spec h (sink.len + chunk.length) (Nat.le_add_right _ _)
  obtain ⟨out, hset⟩ := exists_setBytes buf chunk (off + sink.len) (by omega)
  refine ⟨out, off, ?_, ?_, ?_⟩
  · unfold append
    dsimp only
    rw [hroom, Option.bind_some]
    dsimp only
    rw [hset]
    rfl
  · rw [setBytes_length hset]; omega
  · rw [take_drop_eq_drop_take, ← Nat.add_assoc, setBytes_take hset,
      List.drop_append_of_le_length (by rw [List.length_take]; omega), ← take_drop_eq_drop_take,
      hsame]

theorem le_fragmentCapacity (opts : FrameSinkOptions) (stop msgLength : ℕ) :
    stop ≤ fragmentCapacity opts stop msgLength := by
  unfold fragmentCapacity
  dsimp only
  split
  · split <;> omega
  · omega

theorem appendFragment_spec (opts : FrameSinkOptions) (sink : FrameSink) (payload : Bytes)
    (start : ℕ) (hsize : sink.fragmentBytes = start + payload.length)
    (hroom : start ≤ sink.msg.length) :
    ∃ msg, appendFragment opts sink payload = some { sink with msg := msg } ∧
      sink.fragmentBytes ≤ msg.length ∧
      msg.take sink.fragmentBytes = sink.msg.take start ++ payload := by
  have hstart : sink.fragmentBytes - payload.length = start := by omega
  have hcap := le_fragmentCapacity opts sink.fragmentBytes sink.msg.length
  unfold appendFragment
  dsimp only
  rw [hstart]
  split
  · next hgrow =>
    obtain ⟨grown, hgrown⟩ := exists_setBytes
      (List.replicate (fragmentCapacity opts sink.fragmentBytes sink.msg.length) 0)
      (sink.msg.take start) 0
      (by rw [List.length_take, List.length_replicate]; omega)
    have hglen := setBytes_length hgrown
    rw [List.length_replicate] at hglen
    have hgtake := setBytes_take hgrown
    rw [List.length_take, Nat.min_eq_left hroom, Nat.zero_add, List.take_zero,
      List.nil_append] at hgtake
    obtain ⟨out, hset⟩ := exists_setBytes grown payload start (by omega)
    refine ⟨out, by rw [hgrown, Option.bind_some, hset]; rfl, ?_, ?_⟩
    · rw [setBytes_length hset]; omega
    · rw [hsize, setBytes_take hset, hgtake]
  · next hfits =>
    obtain ⟨out, hset⟩ := exists_setBytes sink.msg payload start (by omega)
    refine ⟨out, by rw [Option.bind_some, hset]; rfl, ?_, ?_⟩
    · rw [setBytes_length hset]; omega
    · rw [hsize, setBytes_take hset]

theorem consume_spec {sink : FrameSink} (h : sink.InRange) (view : Bytes) (consumed : ℕ)
    (hview : view.length = sink.len) (hle : consumed ≤ sink.len)
    (hrest : view.drop consumed = sink.pending.drop consumed) :
    (sink.consume view consumed).InRange ∧
      (sink.consume view consumed).pending = sink.pending.drop consumed := by
  unfold InRange at h
  have htake : (sink.buf.take sink.off).length = sink.off := by rw [List.length_take]; omega
  constructor
  · simp only [InRange, consume, List.length_append, htake, hview, List.length_drop]
    omega
  · unfold consume pending
    dsimp only
    rw [List.append_assoc, List.drop_append, htake, Nat.add_sub_cancel_left,
      List.drop_of_length_le (by rw [htake]; omega), List.nil_append,
      List.drop_append_of_le_length (by omega), List.take_left' (by
        rw [List.length_drop, hview])]
    exact hrest

end FrameSink

end Daloy.WebSocket
