/-
  Zumy.Lib.Framing — streams of frames: a header of fixed size that says how much follows.

  `feed` takes one element of the stream. A header that names no size ends the stream. What is
  read off a stream does not depend on how it is cut, since `feed` is folded over it.

  - `feed_header_short`, `feed_header_full`, `feed_data_short`, `feed_data_full`: what a part of
    a frame does.
-/
import Mathlib.Data.List.Basic

namespace Zumy.Lib.Framing

variable {β : Type*}

structure Frame (β : Type*) where
  header : List β
  data : List β

inductive Current (β : Type*) where
  | header (bytes : List β)
  | data (header bytes : List β)
  | rejected

structure Parser (β : Type*) where
  frames : List (Frame β)
  current : Current β

structure Format (β : Type*) where
  headerSize : Nat
  size : List β → Option Nat
  headerSize_pos : 0 < headerSize

def Frame.bytes (f : Frame β) : List β := f.header ++ f.data

def Parser.start : Parser β := ⟨[], .header []⟩

def finishHeader (F : Format β) (frames : List (Frame β)) (header : List β) : Parser β :=
  match F.size header with
  | none => ⟨frames, .rejected⟩
  | some 0 => ⟨frames ++ [⟨header, []⟩], .header []⟩
  | some (_ + 1) => ⟨frames, .data header []⟩

def finishData (F : Format β) (frames : List (Frame β)) (header data : List β) : Parser β :=
  if F.size header = some data.length then ⟨frames ++ [⟨header, data⟩], .header []⟩ else ⟨frames, .data header data⟩

def feed (F : Format β) (p : Parser β) (b : β) : Parser β :=
  match p.current with
  | .header bytes =>
    if bytes.length + 1 < F.headerSize then ⟨p.frames, .header (bytes ++ [b])⟩ else finishHeader F p.frames (bytes ++ [b])
  | .data header bytes => finishData F p.frames header (bytes ++ [b])
  | .rejected => p

def parse (F : Format β) (stream : List β) : Parser β := stream.foldl (feed F) .start

variable {F : Format β} {frames : List (Frame β)} {header bytes bs : List β} {n : Nat}

theorem feed_rejected (bs : List β) : bs.foldl (feed F) ⟨frames, .rejected⟩ = ⟨frames, .rejected⟩ := by
  induction bs with
  | nil => rfl
  | cons b bs ih => exact ih

theorem feed_header_short (h : bytes.length + bs.length < F.headerSize) :
    bs.foldl (feed F) ⟨frames, .header bytes⟩ = ⟨frames, .header (bytes ++ bs)⟩ := by
  induction bs generalizing bytes with
  | nil => rw [List.foldl_nil, List.append_nil]
  | cons b bs ih =>
    rw [List.length_cons] at h
    have hstep : feed F ⟨frames, .header bytes⟩ b = ⟨frames, .header (bytes ++ [b])⟩ := by
      rw [feed]
      exact if_pos (by omega)
    rw [List.foldl_cons, hstep, ih (by rw [List.length_append, List.length_singleton]; omega), List.append_assoc, List.singleton_append]

theorem feed_header_full (hne : bs ≠ []) (h : bytes.length + bs.length = F.headerSize) :
    bs.foldl (feed F) ⟨frames, .header bytes⟩ = finishHeader F frames (bytes ++ bs) := by
  have hpos : 0 < bs.length := List.length_pos_iff.2 hne
  have hlength : bs.dropLast.length = bs.length - 1 := List.length_dropLast
  have hall : (bytes ++ bs.dropLast ++ [bs.getLast hne]) = bytes ++ bs := by
    rw [List.append_assoc, List.dropLast_concat_getLast hne]
  conv_lhs => rw [← List.dropLast_concat_getLast hne]
  rw [List.foldl_append, feed_header_short (by omega), List.foldl_cons, List.foldl_nil, feed]
  dsimp only
  rw [if_neg (by rw [List.length_append]; omega), hall]

theorem feed_data_short (hsize : F.size header = some n) (h : bytes.length + bs.length < n) :
    bs.foldl (feed F) ⟨frames, .data header bytes⟩ = ⟨frames, .data header (bytes ++ bs)⟩ := by
  induction bs generalizing bytes with
  | nil => rw [List.foldl_nil, List.append_nil]
  | cons b bs ih =>
    rw [List.length_cons] at h
    have hlength : (bytes ++ [b]).length = bytes.length + 1 := by rw [List.length_append, List.length_singleton]
    have hstep : feed F ⟨frames, .data header bytes⟩ b = ⟨frames, .data header (bytes ++ [b])⟩ := by
      refine if_neg ?_
      rw [hsize, hlength, Option.some_inj]
      omega
    rw [List.foldl_cons, hstep, ih (by rw [hlength]; omega), List.append_assoc, List.singleton_append]

theorem feed_data_full (hsize : F.size header = some n) (hne : bs ≠ []) (h : bytes.length + bs.length = n) :
    bs.foldl (feed F) ⟨frames, .data header bytes⟩ = ⟨frames ++ [⟨header, bytes ++ bs⟩], .header []⟩ := by
  have hpos : 0 < bs.length := List.length_pos_iff.2 hne
  have hlength : bs.dropLast.length = bs.length - 1 := List.length_dropLast
  have hall : (bytes ++ bs.dropLast ++ [bs.getLast hne]) = bytes ++ bs := by
    rw [List.append_assoc, List.dropLast_concat_getLast hne]
  conv_lhs => rw [← List.dropLast_concat_getLast hne]
  rw [List.foldl_append, feed_data_short hsize (by omega), List.foldl_cons, List.foldl_nil]
  show finishData F frames header (bytes ++ bs.dropLast ++ [bs.getLast hne]) = _
  rw [hall, finishData]
  exact if_pos (by rw [hsize, List.length_append, h])

/-! ## Whole frames -/

structure Frame.Fits (F : Format β) (f : Frame β) : Prop where
  header : f.header.length = F.headerSize
  size : F.size f.header = some f.data.length

theorem Frame.Fits.header_ne {f : Frame β} (h : f.Fits F) : f.header ≠ [] := by
  have hpos := F.headerSize_pos
  intro hnil
  have hheader := h.header
  rw [hnil, List.length_nil] at hheader
  omega

/-- A header leaves the parser in front of its data; a frame without data is complete at once. -/
theorem feed_header {f : Frame β} (h : f.Fits F) (hdata : f.data ≠ []) :
    f.header.foldl (feed F) ⟨frames, .header []⟩ = ⟨frames, .data f.header []⟩ := by
  rw [feed_header_full h.header_ne (by rw [List.length_nil, h.header, Nat.zero_add]), List.nil_append, finishHeader, h.size]
  cases hlength : f.data.length with
  | zero => exact absurd (List.length_eq_zero_iff.1 hlength) hdata
  | succ n => rfl

theorem feed_frame {f : Frame β} (h : f.Fits F) :
    f.bytes.foldl (feed F) ⟨frames, .header []⟩ = ⟨frames ++ [f], .header []⟩ := by
  rw [Frame.bytes, List.foldl_append]
  by_cases hdata : f.data = []
  · rw [feed_header_full h.header_ne (by rw [List.length_nil, h.header, Nat.zero_add]), List.nil_append, finishHeader, h.size, hdata]
    obtain ⟨header, data⟩ := f
    cases hdata
    rfl
  · rw [feed_header h hdata, feed_data_full h.size hdata (by rw [List.length_nil, Nat.zero_add]), List.nil_append]

theorem feed_part {f : Frame β} (h : f.Fits F) (hpart : bs <+: f.bytes) (hlt : bs.length < f.bytes.length) :
    ∃ current, bs.foldl (feed F) ⟨frames, .header []⟩ = ⟨frames, current⟩ ∧ current ≠ .rejected := by
  have hheader := h.header
  rw [Frame.bytes, List.length_append] at hlt
  rcases Nat.lt_or_ge bs.length F.headerSize with hshort | hlong
  · exact ⟨_, feed_header_short (by rw [List.length_nil]; omega), nofun⟩
  · obtain ⟨d, rfl⟩ : ∃ d, bs = f.header ++ d := by
      have hprefix : f.header <+: bs := List.prefix_of_prefix_length_le (List.prefix_append f.header f.data) hpart (by omega)
      obtain ⟨d, hd⟩ := hprefix
      exact ⟨d, hd.symm⟩
    rw [List.length_append] at hlt
    have hdata : f.data ≠ [] := by
      intro hnil
      rw [hnil, List.length_nil] at hlt
      omega
    rw [List.foldl_append, feed_header h hdata, feed_data_short h.size (by rw [List.length_nil]; omega)]
    exact ⟨_, rfl, nofun⟩

/-- The frames whose bytes are among the first `n`. -/
def fitting : Nat → List (Frame β) → List (Frame β)
  | _, [] => []
  | n, f :: fs => if f.bytes.length ≤ n then f :: fitting (n - f.bytes.length) fs else []

theorem fitting_all (fs : List (Frame β)) {n : Nat} (h : (fs.flatMap Frame.bytes).length ≤ n) : fitting n fs = fs := by
  induction fs generalizing n with
  | nil => rfl
  | cons f fs ih =>
    rw [List.flatMap_cons, List.length_append] at h
    rw [fitting, if_pos (by omega), ih (by omega)]

/-- The induction is on the frames: the first is there as a whole, or is the last that is looked at. -/
theorem feed_fitting (fs : List (Frame β)) (hfits : ∀ f ∈ fs, f.Fits F) (hpart : bs <+: fs.flatMap Frame.bytes) :
    ∃ current, bs.foldl (feed F) ⟨frames, .header []⟩ = ⟨frames ++ fitting bs.length fs, current⟩ ∧ current ≠ .rejected := by
  induction fs generalizing frames bs with
  | nil =>
    rw [List.flatMap_nil, List.prefix_nil] at hpart
    rw [hpart]
    exact ⟨.header [], by simp [fitting], nofun⟩
  | cons f fs ih =>
    have hf := hfits f List.mem_cons_self
    rw [List.flatMap_cons] at hpart
    rw [fitting]
    rcases Nat.lt_or_ge bs.length f.bytes.length with hlt | hge
    · rw [if_neg (by omega), List.append_nil]
      exact feed_part hf (List.prefix_of_prefix_length_le hpart (List.prefix_append _ _) (by omega)) hlt
    · obtain ⟨rest, rfl⟩ : ∃ rest, bs = f.bytes ++ rest := by
        obtain ⟨rest, hrest⟩ := List.prefix_of_prefix_length_le (List.prefix_append _ _) hpart hge
        exact ⟨rest, hrest.symm⟩
      have hrest := (List.prefix_append_right_inj f.bytes).1 hpart
      obtain ⟨current, hfeed, hcurrent⟩ : ∃ current, rest.foldl (feed F) ⟨frames ++ [f], .header []⟩ =
          ⟨frames ++ [f] ++ fitting rest.length fs, current⟩ ∧ current ≠ .rejected :=
        ih (fun g hg => hfits g (List.mem_cons_of_mem f hg)) hrest
      refine ⟨current, ?_, hcurrent⟩
      rw [List.foldl_append, feed_frame hf, hfeed, if_pos hge, List.length_append, Nat.add_sub_cancel_left, List.append_assoc,
        List.singleton_append]

end Zumy.Lib.Framing
