import GrinPlusPlus.Lib.Exec

/-!
# Codecs

A value is written as a list, and a reader that starts on a list takes a piece of it and leaves the
rest. The reader *reads* what was written when it takes exactly that, **whatever follows**
(`Codec.Reads`): this is the form of a round trip that composes, as the second half of a value is
what follows the first (`Codec.Reads.bind`).

A stream is cut into frames one by one (`Codec.cut`), whether it arrives at once or in pieces
(`Codec.Framed.cut_append`). Frames that are taken whole come back in their order, with an
unfinished one left over (`Codec.Framed.cut_flatMap`, `Codec.Framed.cut_take`), and whatever a
stream is cut into is what it begins with (`Codec.Framed.of_cut`).
-/

namespace Codec

open Exec

variable {ε α β γ δ : Type}

/-! ### Values -/

/-- A reader takes exactly a text, whatever follows it, and returns a value. -/
def Reads (read : Exec ε (List β) α) (text : List β) (a : α) : Prop :=
  ∀ rest, run read (text ++ rest) = (.ok a, rest)

theorem reads_pure (a : α) : Reads (pure a : Exec ε (List β) α) [] a :=
  fun _ => rfl

/-- **One behind the other.** -/
theorem Reads.bind {x : Exec ε (List β) α} {f : α → Exec ε (List β) δ} {s t : List β} {a : α}
    {d : δ} (hx : Reads x s a) (hf : Reads (f a) t d) : Reads (x >>= f) (s ++ t) d := by
  intro rest
  rw [List.append_assoc, run_bind_ok (hx _)]
  exact hf rest

/-- The last one is put into the value. -/
theorem Reads.map {x : Exec ε (List β) α} {s : List β} {a : α} (hx : Reads x s a) (f : α → δ) :
    Reads (x >>= fun a => pure (f a)) s (f a) := by
  intro rest
  rw [run_bind_ok (hx rest), run_pure]

/-! ### Streams -/

/-- A stream cut into so many frames at most, and what is left of it. -/
def split (next : List β → Option (γ × List β)) : ℕ → List β → List γ × List β
  | 0, stream => ([], stream)
  | n + 1, stream =>
    match next stream with
    | none => ([], stream)
    | some (frame, rest) => (frame :: (split next n rest).1, (split next n rest).2)

/-- The frames of a stream, and what is left of it. -/
def cut (next : List β → Option (γ × List β)) (stream : List β) : List γ × List β :=
  split next stream.length stream

/-- No frame is empty, and none depends on what follows it. -/
structure Framed (next : List β → Option (γ × List β)) : Prop where
  /-- No frame is empty. -/
  length_lt : ∀ {stream frame rest}, next stream = some (frame, rest) →
    rest.length < stream.length
  /-- None depends on what follows it. -/
  append : ∀ {stream frame rest}, next stream = some (frame, rest) →
    ∀ more, next (stream ++ more) = some (frame, rest ++ more)

namespace Framed

variable {next : List β → Option (γ × List β)} (h : Framed next)

include h

/-- A stream has no more frames than places. -/
theorem split_eq {n : ℕ} {stream : List β} (hn : stream.length ≤ n) :
    split next n stream = cut next stream := by
  induction n using Nat.strongRecOn generalizing stream with
  | _ n ih =>
    rw [cut]
    cases n with
    | zero => rw [Nat.le_zero.1 hn]
    | succ n =>
      rw [split]
      cases hhead : next stream with
      | none =>
        cases stream.length with
        | zero => rfl
        | succ m => rw [split, hhead]
      | some head =>
        have hlt := h.length_lt hhead
        obtain ⟨m, hm⟩ := Nat.exists_eq_add_of_lt (Nat.zero_lt_of_lt hlt)
        rw [Nat.zero_add] at hm
        rw [hm, split, hhead]
        dsimp only
        rw [ih n (Nat.lt_succ_self n) (by omega : head.2.length ≤ n),
          ih m (by omega) (by omega : head.2.length ≤ m)]

/-- The first frame, and the others. -/
theorem cut_of_some {stream rest : List β} {frame : γ}
    (hnext : next stream = some (frame, rest)) :
    cut next stream = (frame :: (cut next rest).1, (cut next rest).2) := by
  have hlt := h.length_lt hnext
  rw [← h.split_eq (Nat.le_succ _), split, hnext]
  dsimp only
  rw [h.split_eq (Nat.le_of_lt hlt)]

theorem cut_of_none {stream : List β} (hnext : next stream = none) :
    cut next stream = ([], stream) := by
  rw [← h.split_eq (Nat.le_succ _), split, hnext]

/-- **In pieces**: when more of a stream arrives, the frames that were taken stay, and the others
are those of what was left with what has arrived. -/
theorem cut_append (stream more : List β) :
    cut next (stream ++ more) = ((cut next stream).1 ++ (cut next ((cut next stream).2 ++ more)).1,
      (cut next ((cut next stream).2 ++ more)).2) := by
  induction hn : stream.length using Nat.strongRecOn generalizing stream with
  | _ n ih =>
    cases hhead : next stream with
    | none => rw [h.cut_of_none hhead, List.nil_append]
    | some head =>
      rw [h.cut_of_some hhead, h.cut_of_some (h.append hhead more),
        ih _ (hn ▸ h.length_lt hhead) head.2 rfl, List.cons_append]

/-- **Whole frames come back**, and what is behind them is cut as if it stood alone. -/
theorem cut_flatMap {write : α → List β} {take : α → γ} {values : List α}
    (hwrite : ∀ a ∈ values, next (write a) = some (take a, [])) (rest : List β) :
    cut next (values.flatMap write ++ rest) =
      (values.map take ++ (cut next rest).1, (cut next rest).2) := by
  induction values with
  | nil => rfl
  | cons a values ih =>
    have hhead := h.append (hwrite a List.mem_cons_self) (values.flatMap write ++ rest)
    rw [List.flatMap_cons, List.append_assoc, h.cut_of_some hhead, List.nil_append,
      ih fun a ha => hwrite a (List.mem_cons_of_mem _ ha), List.map_cons, List.cons_append]

/-- **Part of a frame** is not taken for one. -/
theorem cut_take {frame : List β} {c : γ} (hframe : next frame = some (c, [])) {k : ℕ}
    (hk : k < frame.length) : cut next (frame.take k) = ([], frame.take k) := by
  refine h.cut_of_none (Option.eq_none_iff_forall_ne_some.2 fun head hhead => ?_)
  have hwhole := h.append hhead (frame.drop k)
  rw [List.take_append_drop, hframe] at hwhole
  have hrest : ([] : List β) = head.2 ++ frame.drop k := congrArg Prod.snd (Option.some.inj hwhole)
  have hdrop := (List.append_eq_nil_iff.1 hrest.symm).2
  rw [List.drop_eq_nil_iff] at hdrop
  exact absurd hk (Nat.not_lt_of_le hdrop)

/-- **What a stream is cut into** is what it begins with, and every frame is one that is let
through. -/
theorem of_cut (write : γ → List β) (good : γ → Prop)
    (hnext : ∀ {stream frame rest}, next stream = some (frame, rest) →
      stream = write frame ++ rest ∧ good frame) (stream : List β) :
    stream = (cut next stream).1.flatMap write ++ (cut next stream).2 ∧
      ∀ frame ∈ (cut next stream).1, good frame := by
  induction hn : stream.length using Nat.strongRecOn generalizing stream with
  | _ n ih =>
    cases hhead : next stream with
    | none =>
      rw [h.cut_of_none hhead]
      exact ⟨rfl, nofun⟩
    | some head =>
      obtain ⟨hstream, hgood⟩ := hnext hhead
      obtain ⟨hrest, hall⟩ := ih _ (hn ▸ h.length_lt hhead) head.2 rfl
      rw [h.cut_of_some hhead]
      dsimp only
      rw [List.flatMap_cons, List.append_assoc, ← hrest]
      exact ⟨hstream, List.forall_mem_cons.2 ⟨hgood, hall⟩⟩

end Framed

end Codec
