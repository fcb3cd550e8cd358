import Spinel.Proofs.Source.LineTable

/-!
# Places of the cursor

A stream carries the place of its cursor along, and a buffer looks it up in its table of line
starts. A text, a cursor in it and the number of characters available (`Mark`) determine both, and
each move takes both from the values at one mark to those at another (`Mark.stream_perform`,
`Mark.buffer_perform`). So after any moves both tell how many characters and how many line feeds
stand before the cursor, and how many characters since the last of these (`positions_tell_cursor`).
-/

namespace Spinel

/-! ## Marks -/

/-- How far a text was read: the characters before the cursor, and those available. -/
structure Mark (text : List Char) where
  cursor : Nat
  horizon : Nat
  cursor_le : cursor ≤ horizon
  horizon_le : horizon ≤ text.length

namespace Mark

variable {text : List Char} (m : Mark text)

/-- What is available once the character behind the cursor was asked for: a further line, if that
character was not available. -/
def reached (m : Mark text) : Nat :=
  if m.cursor < m.horizon then m.horizon
  else m.horizon + Stream.lineLength (text.drop m.horizon)

theorem cursor_le_reached : m.cursor ≤ m.reached := by
  have hle := m.cursor_le
  unfold reached
  split <;> omega

theorem reached_le : m.reached ≤ text.length := by
  have hle := m.horizon_le
  have hline := Stream.lineLength_le (text.drop m.horizon)
  rw [List.length_drop] at hline
  unfold reached
  split <;> omega

/-- The character behind the cursor becomes available, if there is one. -/
theorem lt_reached (h : m.cursor < text.length) : m.cursor < m.reached := by
  have hle := m.cursor_le
  unfold reached
  split
  · assumption
  · have hline : 0 < Stream.lineLength (text.drop m.horizon) :=
      Stream.lineLength_pos (by rw [Ne, List.drop_eq_nil_iff]; omega)
    omega

theorem next_le_reached : min (m.cursor + 1) text.length ≤ m.reached := by
  have hcursor := m.cursor_le_reached
  by_cases hin : m.cursor < text.length
  · have hlt := m.lt_reached hin
    omega
  · omega

theorem back_le : m.cursor - 1 ≤ m.horizon :=
  Nat.le_trans (Nat.sub_le _ _) m.cursor_le

/-- The mark once the character behind the cursor was looked at. -/
def peek (m : Mark text) : Mark text :=
  ⟨m.cursor, m.reached, m.cursor_le_reached, m.reached_le⟩

/-- The mark once the character behind the cursor was read. -/
def next (m : Mark text) : Mark text :=
  ⟨min (m.cursor + 1) text.length, m.reached, m.next_le_reached, m.reached_le⟩

/-- The mark one character before. -/
def back (m : Mark text) : Mark text := ⟨m.cursor - 1, m.horizon, m.back_le, m.horizon_le⟩

/-! ### Streams -/

/-- The stream over a text that was read up to a mark. -/
def stream (m : Mark text) : Stream where
  before := (text.take m.cursor).reverse
  rest := text.drop m.cursor
  position := .after (text.take m.cursor)
  horizon := m.horizon

theorem cursor_le_length : m.cursor ≤ text.length :=
  Nat.le_trans m.cursor_le m.horizon_le

@[simp] theorem offset_position : m.stream.position.offset = m.cursor :=
  List.length_take_of_le m.cursor_le_length

theorem stream_whole : m.stream.whole = text := by
  simp [Stream.whole, stream]

theorem stream_available : m.stream.available = text.take m.horizon := by
  rw [Stream.available, stream_whole]
  rfl

theorem stream_demand : m.stream.demand 1 = m.peek.stream := by
  have hle := m.cursor_le
  unfold Stream.demand
  rw [offset_position]
  by_cases hin : m.cursor < m.horizon
  · have hreached : m.reached = m.horizon := if_pos hin
    rw [if_pos (show m.cursor + 1 ≤ m.stream.horizon from hin)]
    simp only [peek, stream, hreached]
  · have heq : m.cursor = m.horizon := by omega
    have hahead : (m.stream.rest.take 1).length - 1 = 0 := by
      rw [List.length_take]
      omega
    have hreached : m.reached =
        max m.horizon (m.cursor + 0 + Stream.lineLength (m.stream.rest.drop 0)) := by
      rw [reached, if_neg hin, List.drop_zero, stream, heq]
      dsimp only
      omega
    rw [if_neg (show ¬m.cursor + 1 ≤ m.stream.horizon from hin), hahead]
    simp only [peek, hreached]
    rfl

theorem stream_step : m.peek.stream.step = m.next.stream := by
  by_cases hin : m.cursor < text.length
  · have htake := List.take_succ_eq_append_getElem hin
    have hrest : m.peek.stream.rest = text[m.cursor] :: text.drop (m.cursor + 1) :=
      List.drop_eq_getElem_cons hin
    have hnext : min (m.cursor + 1) text.length = m.cursor + 1 := by omega
    simp only [Stream.step, hrest]
    simp only [next, stream, hnext, htake, List.reverse_append, List.reverse_singleton,
      List.singleton_append, Position.after_append_singleton]
    rfl
  · have hle := m.cursor_le_length
    have hrest : m.peek.stream.rest = [] := List.drop_eq_nil_of_le (Nat.le_of_not_lt hin)
    have hnext : min (m.cursor + 1) text.length = m.cursor := by omega
    simp only [Stream.step, hrest]
    simp only [next, stream, hnext]
    rfl

theorem stream_next : m.stream.next = (text[m.cursor]?, m.next.stream) := by
  rw [Stream.next, stream_demand, stream_step]
  simp [stream]

theorem stream_peek : m.stream.peek = (text[m.cursor]?, m.peek.stream) := by
  rw [Stream.peek, stream_demand]
  simp [stream]

theorem stream_back : m.stream.back = m.back.stream := by
  cases hk : m.cursor with
  | zero => simp [Stream.back, stream, back, hk]
  | succ k =>
    have hin : k < text.length := Nat.lt_of_lt_of_le (by omega) m.cursor_le_length
    have htake := List.take_succ_eq_append_getElem hin
    have hbefore : m.stream.before = text[k] :: (text.take k).reverse := by
      simp only [stream, hk, htake, List.reverse_append, List.reverse_singleton,
        List.singleton_append]
    have hposition : m.stream.position = (Position.after (text.take k)).next text[k] := by
      rw [← Position.after_append_singleton, ← htake, ← hk]
      rfl
    have hrest : text[k] :: m.stream.rest = text.drop k := by
      rw [List.drop_eq_getElem_cons hin, ← hk]
      rfl
    simp only [Stream.back, hbefore, hposition, hrest]
    by_cases hfeed : text[k] = '\n'
    · simp [stream, back, hk, Position.next, Position.after, Position.lastLine, hfeed]
    · simp [stream, back, hk, Position.next, hfeed]

/-! ### Buffers -/

/-- The buffer that holds what is available of a text at a mark. -/
def buffer (m : Mark text) : Buffer where
  chars := (text.take m.horizon).toArray
  cursor := m.cursor
  lineStarts := (Buffer.startsOf (text.take m.horizon)).toArray
  unread := text.drop m.horizon

theorem buffer_exhausted_iff :
    m.buffer.exhausted = true ↔ m.horizon ≤ m.cursor := by
  simp [Buffer.exhausted, buffer, m.horizon_le]

/-- A line that is read makes as much available as it does for a stream. -/
theorem buffer_fill (h : ¬m.cursor < m.horizon) :
    m.buffer.fill = m.peek.buffer := by
  have hreached : m.peek.horizon = m.horizon + Stream.lineLength (text.drop m.horizon) := if_neg h
  have hsize : m.buffer.chars.size = (text.take m.horizon).length := rfl
  simp only [Buffer.fill, Buffer.extend_eq, hsize]
  simp only [buffer, hreached, List.take_add, Buffer.startsOf_append, List.drop_drop,
    List.append_toArray]
  rfl

theorem buffer_refill : m.buffer.refill = m.peek.buffer := by
  by_cases hin : m.cursor < m.horizon
  · have hreached : m.reached = m.horizon := if_pos hin
    rw [Buffer.refill, if_neg (by rw [buffer_exhausted_iff]; omega)]
    simp only [peek, buffer, hreached]
  · by_cases hunread : text.drop m.horizon = []
    · have hreached : m.reached = m.horizon := by
        rw [reached, if_neg hin, hunread]
        rfl
      rw [Buffer.refill, if_neg fun h => h.2 hunread]
      simp only [peek, buffer, hreached]
    · -- The line that is read has a character, so that no further line is read.
      have hin' : m.cursor < text.length :=
        Nat.lt_of_le_of_lt m.cursor_le (Nat.lt_of_not_le (mt List.drop_eq_nil_of_le hunread))
      have hlt : m.peek.cursor < m.peek.horizon := m.lt_reached hin'
      rw [Buffer.refill, if_pos ⟨(buffer_exhausted_iff m).2 (Nat.le_of_not_lt hin), hunread⟩,
        buffer_fill m hin, Buffer.refill, if_neg (by rw [buffer_exhausted_iff]; omega)]

theorem getElem?_buffer_peek :
    m.peek.buffer.chars[m.peek.buffer.cursor]? = text[m.cursor]? := by
  have hle := m.reached_le
  simp only [buffer, peek, List.getElem?_toArray, List.getElem?_take]
  by_cases hin : m.cursor < text.length
  · rw [if_pos (m.lt_reached hin)]
  · rw [if_neg (by omega), List.getElem?_eq_none (by omega)]

theorem buffer_next : m.buffer.next = (text[m.cursor]?, m.next.buffer) := by
  have hle := m.cursor_le_length
  simp only [Buffer.next, buffer_refill, getElem?_buffer_peek]
  by_cases hin : m.cursor < text.length
  · have hnext : min (m.cursor + 1) text.length = m.cursor + 1 := by omega
    rw [List.getElem?_eq_getElem hin]
    simp only [next, buffer, hnext]
    rfl
  · have hnext : min (m.cursor + 1) text.length = m.cursor := by omega
    rw [List.getElem?_eq_none (by omega)]
    simp only [next, buffer, hnext]
    rfl

theorem buffer_back : m.buffer.back = m.back.buffer := rfl

theorem buffer_peek : m.buffer.peek = (text[m.cursor]?, m.peek.buffer) := by
  have hle := m.cursor_le_length
  rw [Buffer.peek, buffer_next]
  by_cases hin : m.cursor < text.length
  · have hback : m.next.back.buffer = m.peek.buffer := by
      have hcursor : min (m.cursor + 1) text.length - 1 = m.cursor := by omega
      simp only [next, back, peek, buffer, hcursor]
    rw [List.getElem?_eq_getElem hin]
    exact congrArg _ hback
  · have hnext : min (m.cursor + 1) text.length = m.cursor := by omega
    rw [List.getElem?_eq_none (by omega)]
    simp only [next, peek, hnext]

theorem buffer_position? : m.buffer.position? = some m.stream.position := by
  have htake : text.take m.cursor = (text.take m.horizon).take m.cursor := by
    rw [List.take_take, Nat.min_eq_left m.cursor_le]
  have htable : m.buffer.lineStarts.toList =
      Buffer.startsOf (text.take m.cursor ++ (text.take m.horizon).drop m.cursor) := by
    rw [htake, List.take_append_drop]
    rfl
  exact Buffer.position?_eq htable (List.length_take_of_le m.cursor_le_length).symm

theorem buffer_text : m.buffer.text = m.stream.availableText := by
  rw [Stream.availableText, stream_available]
  rfl

theorem buffer_lineText (n : Nat) : m.buffer.lineText n = m.stream.lineText n := by
  have hstarts : m.buffer.lineStarts[n]? = (Buffer.startsOf (text.take m.horizon))[n]? := by
    simp [buffer]
  rw [Buffer.lineText, Stream.lineText, stream_available, Buffer.dropLines_eq_startsOf, hstarts]
  cases hstart : (Buffer.startsOf (text.take m.horizon))[n]? with
  | none => rfl
  | some start =>
    have hle : start ≤ m.buffer.chars.size :=
      Buffer.le_of_mem_startsOf (List.mem_of_getElem? hstart)
    exact if_neg (Nat.not_lt_of_le hle)

end Mark

/-! ## Moves -/

/-- What is done with a text that is read character by character. -/
inductive Stream.Move where
  | next
  | back
  | peek
deriving DecidableEq

namespace Stream

/-- Where a move leaves the cursor in a text of so many characters. -/
def Move.shift (length cursor : Nat) : Move → Nat
  | .next => min (cursor + 1) length
  | .back => cursor - 1
  | .peek => cursor

/-- Where moves from the beginning leave the cursor. -/
def Move.cursor (length : Nat) (moves : List Move) : Nat := moves.foldl (shift length) 0

/-- A stream over a text that is available as a whole, or line by line on demand. -/
def opened (onDemand : Bool) (text : String) : Stream :=
  if onDemand then .ofReader text else .ofText text

def perform (s : Stream) : Move → Stream
  | .next => s.next.2
  | .back => s.back
  | .peek => s.peek.2

/-- The places where characters were read that were not given back, the last one first, once a move
was made from `s`. -/
def Move.track (s : Stream) (places : List Position) : Move → List Position
  | .next => if s.next.1.isSome then s.position :: places else places
  | .back => places.tail
  | .peek => places

/-- A move that keeps these places beside the stream. -/
def tracked (state : Stream × List Position) (move : Move) : Stream × List Position :=
  (state.1.perform move, move.track state.1 state.2)

/-- These places once moves were made from the beginning. -/
def trail (s : Stream) (moves : List Move) : List Position := (moves.foldl tracked (s, [])).2

end Stream

namespace Buffer

/-- A buffer for a text that is available as a whole, or line by line on demand. -/
def opened (onDemand : Bool) (text : String) : Buffer :=
  if onDemand then .ofReader text else .ofText text

def perform (b : Buffer) : Stream.Move → Buffer
  | .next => b.next.2
  | .back => b.back
  | .peek => b.peek.2

end Buffer

namespace Mark

variable {text : List Char} (m : Mark text)

def perform (m : Mark text) : Stream.Move → Mark text
  | .next => m.next
  | .back => m.back
  | .peek => m.peek

theorem cursor_perform (move : Stream.Move) :
    (m.perform move).cursor = move.shift text.length m.cursor := by
  cases move <;> rfl

theorem stream_perform (move : Stream.Move) :
    m.stream.perform move = (m.perform move).stream := by
  cases move with
  | next => exact congrArg Prod.snd m.stream_next
  | back => exact m.stream_back
  | peek => exact congrArg Prod.snd m.stream_peek

theorem buffer_perform (move : Stream.Move) :
    m.buffer.perform move = (m.perform move).buffer := by
  cases move with
  | next => exact congrArg Prod.snd m.buffer_next
  | back => exact m.buffer_back
  | peek => exact congrArg Prod.snd m.buffer_peek

/-- The places before the cursor, the last one first. -/
def path (m : Mark text) : List Position :=
  (List.range m.cursor).reverse.map fun k => .after (text.take k)

theorem track_path (move : Stream.Move) :
    move.track m.stream m.path = (m.perform move).path := by
  have hle := m.cursor_le_length
  cases move with
  | next =>
    rw [Stream.Move.track, stream_next]
    by_cases hin : m.cursor < text.length
    · have hnext : min (m.cursor + 1) text.length = m.cursor + 1 := by omega
      simp only [List.getElem?_eq_getElem hin, Option.isSome_some, if_true, path, perform, next,
        hnext, List.range_succ, List.reverse_append, List.reverse_singleton, List.map_append]
      rfl
    · have hnext : min (m.cursor + 1) text.length = m.cursor := by omega
      simp [List.getElem?_eq_none (Nat.le_of_not_lt hin), path, perform, next, hnext]
  | back =>
    cases hk : m.cursor with
    | zero => simp [Stream.Move.track, path, perform, back, hk]
    | succ k => simp [Stream.Move.track, path, perform, back, hk, List.range_succ]
  | peek => rfl

/-- Giving a character back leads to the last of the places on the way. -/
theorem position_back : m.back.stream.position = m.path.headD .start := by
  have hposition : m.back.stream.position = Position.after (text.take (m.cursor - 1)) := rfl
  rw [hposition]
  cases hk : m.cursor with
  | zero =>
    have hpath : m.path = [] := by simp [path, hk]
    rw [hpath]
    rfl
  | succ k => simp [path, hk, List.range_succ]

/-- What is available in the beginning. -/
def supply (onDemand : Bool) (text : List Char) : Nat := if onDemand then 0 else text.length

theorem supply_le (onDemand : Bool) (text : List Char) : supply onDemand text ≤ text.length := by
  unfold supply
  split <;> omega

/-- The mark at the beginning of a text. -/
def opened (onDemand : Bool) (text : List Char) : Mark text where
  cursor := 0
  horizon := supply onDemand text
  cursor_le := Nat.zero_le (supply onDemand text)
  horizon_le := supply_le onDemand text

theorem stream_opened (onDemand : Bool) (text : String) :
    Stream.opened onDemand text = (opened onDemand text.toList).stream := by
  cases onDemand <;> rfl

theorem buffer_opened (onDemand : Bool) (text : String) :
    Buffer.opened onDemand text = (opened onDemand text.toList).buffer := by
  cases onDemand with
  | false =>
    simp [Buffer.opened, Buffer.ofText, Buffer.ofReader, Buffer.extend_eq, opened, supply, buffer,
      Buffer.startsOf]
  | true => rfl

/-- Moves take a stream, a buffer and the places on the way where they take a mark. -/
theorem perform_all (onDemand : Bool) (text : String) (moves : List Stream.Move) :
    ∃ m : Mark text.toList,
      m.cursor = Stream.Move.cursor text.length moves ∧
      moves.foldl Stream.perform (.opened onDemand text) = m.stream ∧
      moves.foldl Buffer.perform (.opened onDemand text) = m.buffer ∧
      (Stream.opened onDemand text).trail moves = m.path := by
  refine ⟨moves.foldl perform (opened onDemand text.toList), ?_, ?_, ?_, ?_⟩
  · rw [Stream.Move.cursor, ← String.length_toList]
    exact (List.foldl_hom cursor fun m move => (cursor_perform m move).symm).symm
  · rw [stream_opened]
    exact List.foldl_hom stream stream_perform
  · rw [buffer_opened]
    exact List.foldl_hom buffer buffer_perform
  · rw [Stream.trail, stream_opened]
    exact congrArg Prod.snd (List.foldl_hom (fun m : Mark text.toList => (m.stream, m.path))
      fun m move => Prod.ext (stream_perform m move) (track_path m move))

end Mark

/-- Whatever moves were made, a stream over a text and a buffer for it tell the same place: how many
characters stand before the cursor, how many of them are line feeds, and how many follow the last
line feed, the last two as words, which are these numbers exactly if they hold them. Peeking leaves
the place, going back leads to where the last character was read that was not given back, and stays
at the beginning if there is none. The line is always found in the table of the buffer, and no
number exceeds the length of the text. -/
theorem positions_tell_cursor (onDemand : Bool) (text : String) (moves : List Stream.Move) :
    let s := moves.foldl Stream.perform (.opened onDemand text)
    let b := moves.foldl Buffer.perform (.opened onDemand text)
    let k := Stream.Move.cursor text.length moves
    let read := text.toList.take k
    let column := (read.reverse.takeWhile (· ≠ '\n')).length
    (s.before = read.reverse ∧ s.rest = text.toList.drop k ∧ b.cursor = k ∧ k ≤ text.length) ∧
      s.position = ⟨k, .ofNat (read.count '\n'), .ofNat column⟩ ∧
      (s.position.Tells read ↔ read.count '\n' < UInt32.size ∧ column < UInt32.size) ∧
      b.position? = some s.position ∧
      (s.next.1 = text.toList[k]? ∧ b.next.1 = s.next.1) ∧
      (s.peek.1 = s.next.1 ∧ s.peek.2.position = s.position) ∧
      (b.peek.1 = b.next.1 ∧ b.peek.2.position? = b.position?) ∧
      s.back.position = ((Stream.opened onDemand text).trail moves).headD .start ∧
      b.back.position? = some s.back.position ∧
      (b.text = s.availableText ∧ ∀ n, b.lineText n = s.lineText n) ∧
      s.position.line.toNat ≤ text.length ∧ s.position.column.toNat ≤ text.length := by
  obtain ⟨m, hk, hs, hb, htrail⟩ := Mark.perform_all onDemand text moves
  dsimp only
  rw [hs, hb, htrail, ← hk]
  have hle : m.cursor ≤ text.length := String.length_toList ▸ m.cursor_le_length
  have hnext : m.stream.next.1 = text.toList[m.cursor]? := by rw [m.stream_next]
  have hnext' : m.buffer.next.1 = text.toList[m.cursor]? := by rw [m.buffer_next]
  have hword : ∀ n, n ≤ m.cursor → (UInt32.ofNat n).toNat ≤ text.length := fun n hn => by
    rw [UInt32.toNat_ofNat']
    exact Nat.le_trans (Nat.mod_le _ _) (Nat.le_trans hn hle)
  refine ⟨⟨rfl, rfl, rfl, hle⟩, ?_, Position.tells_iff_of_eq_after rfl, m.buffer_position?,
    ⟨hnext, hnext'.trans hnext.symm⟩, ⟨?_, ?_⟩, ⟨?_, ?_⟩, ?_, ?_,
    ⟨m.buffer_text, m.buffer_lineText⟩, ?_, ?_⟩
  · exact congrArg (Position.mk · _ _) m.offset_position
  · rw [m.stream_peek, hnext]
  · rw [m.stream_peek]
    rfl
  · rw [m.buffer_peek, hnext']
  · rw [m.buffer_peek, m.buffer_position?]
    exact m.peek.buffer_position?
  · rw [m.stream_back, m.position_back]
  · rw [m.stream_back]
    exact m.back.buffer_position?
  · exact hword _ (Nat.le_trans List.count_le_length (List.length_take_le _ _))
  · refine hword _ (Nat.le_trans (List.takeWhile_prefix _).length_le ?_)
    rw [List.length_reverse]
    exact List.length_take_le _ _

theorem cursor_replicate_next (size n : Nat) :
    Stream.Move.cursor size (List.replicate n .next) = min n size := by
  induction n with
  | zero => exact (Nat.zero_min size).symm
  | succ n ih =>
    have hlast : Stream.Move.cursor size (List.replicate (n + 1) .next) =
        min (Stream.Move.cursor size (List.replicate n .next) + 1) size := by
      rw [List.replicate_succ', Stream.Move.cursor, List.foldl_append]
      rfl
    rw [hlast, ih]
    omega

/-- Behind all characters of a text of one line. -/
theorem position_replicate_next (n : Nat) :
    let text := String.ofList (List.replicate n 'a')
    let s := (List.replicate n .next).foldl Stream.perform (.opened false text)
    s.before = List.replicate n 'a' ∧ s.position = ⟨n, 0, .ofNat n⟩ := by
  intro text s
  have htext : text.toList = List.replicate n 'a' := String.toList_ofList
  have hlength : text.length = n := by
    rw [← String.length_toList, htext, List.length_replicate]
  obtain ⟨m, hk, hs, -⟩ := Mark.perform_all false text (List.replicate n .next)
  rw [cursor_replicate_next, hlength, Nat.min_self] at hk
  have hread : text.toList.take m.cursor = List.replicate n 'a' := by
    rw [hk, htext, List.take_replicate, Nat.min_self]
  have hbefore : s.before = (text.toList.take m.cursor).reverse := congrArg Stream.before hs
  have hposition : s.position = .after (text.toList.take m.cursor) := congrArg Stream.position hs
  rw [hread] at hbefore hposition
  exact ⟨hbefore.trans List.reverse_replicate,
    hposition.trans (Position.after_replicate (by decide) n)⟩

/-- A cursor behind too many characters of one line tells no column for them. -/
theorem position_cut_off :
    let text := String.ofList (List.replicate UInt32.size 'a')
    let s := (List.replicate UInt32.size .next).foldl Stream.perform (.opened false text)
    s.before.length = UInt32.size ∧ s.position = ⟨UInt32.size, 0, 0⟩ ∧
      ¬s.position.Tells s.before.reverse := by
  obtain ⟨hbefore, hposition⟩ := position_replicate_next UInt32.size
  refine ⟨?_, hposition, fun htells => ?_⟩
  · rw [hbefore, List.length_replicate]
  · have hfits := htells.fits.2
    rw [hbefore, List.reverse_replicate, Position.length_lastLine_replicate (by decide)] at hfits
    exact Nat.lt_irrefl _ hfits

end Spinel
