import GraphQL.Token.Lexer

/-! Byte offsets against runs of characters. A slice whose ends are the sizes of two runs at the
start of a text cuts out exactly what lies between the two runs. -/
namespace GraphQL.Text

@[simp] theorem byteSize_nil : byteSize [] = 0 := rfl

@[simp] theorem byteSize_cons (c : Char) (cs : List Char) :
    byteSize (c :: cs) = c.utf8Size + byteSize cs := rfl

@[simp] theorem byteSize_append (cs ds : List Char) :
    byteSize (cs ++ ds) = byteSize cs + byteSize ds := by
  induction cs with
  | nil => simp
  | cons c cs ih =>
      simp only [List.cons_append, byteSize_cons, ih]
      omega

theorem afterBytes?_cons {n : Nat} {c : Char} {cs : List Char} (h : c.utf8Size ≤ n) :
    afterBytes? n (c :: cs) = afterBytes? (n - c.utf8Size) cs := by
  have hPos := Char.utf8Size_pos c
  cases n with
  | zero => omega
  | succ n => rw [afterBytes?, if_pos h]

theorem firstBytes?_cons {n : Nat} {c : Char} {cs : List Char} (h : c.utf8Size ≤ n) :
    firstBytes? n (c :: cs) = (firstBytes? (n - c.utf8Size) cs).map (c :: ·) := by
  have hPos := Char.utf8Size_pos c
  cases n with
  | zero => omega
  | succ n => rw [firstBytes?, if_pos h]

/-- Behind the bytes of the first part is the second part. -/
theorem afterBytes?_append (cs ds : List Char) :
    afterBytes? (byteSize cs) (cs ++ ds) = some ds := by
  induction cs with
  | nil => cases ds <;> rfl
  | cons c cs ih => simp [afterBytes?_cons, ih]

/-- Characters of one byte each have as many bytes as there are of them. -/
theorem byteSize_eq_length {cs : List Char} (h : ∀ c ∈ cs, c.utf8Size = 1) :
    byteSize cs = cs.length := by
  induction cs with
  | nil => rfl
  | cons c cs ih =>
      obtain ⟨hFirst, hRest⟩ := List.forall_mem_cons.1 h
      rw [byteSize_cons, hFirst, ih hRest, List.length_cons, Nat.add_comm]

/-- Nothing follows more bytes than there are. -/
theorem afterBytes?_of_lt {n : Nat} {cs : List Char} (h : byteSize cs < n) :
    afterBytes? n cs = none := by
  induction cs generalizing n with
  | nil =>
      obtain ⟨n, rfl⟩ := Nat.exists_eq_add_one.2 (Nat.zero_lt_of_lt h)
      rfl
  | cons c cs ih =>
      rw [byteSize_cons] at h
      rw [afterBytes?_cons (by omega), ih (by omega)]

/-- The bytes of the first part hold the first part. -/
theorem firstBytes?_append (cs ds : List Char) :
    firstBytes? (byteSize cs) (cs ++ ds) = some cs := by
  induction cs with
  | nil => cases ds <;> rfl
  | cons c cs ih => simp [firstBytes?_cons, ih]

/-- A part of a text is cut out at its own offsets. -/
theorem slice_append (before inside after : List Char) :
    slice (byteSize before) (byteSize (before ++ inside)) (before ++ inside ++ after) = inside := by
  have hSize : byteSize (before ++ inside) - byteSize before = byteSize inside := by simp
  rw [slice, if_pos (by simp), hSize, List.append_assoc, afterBytes?_append]
  simp [firstBytes?_append]

end GraphQL.Text

namespace GraphQL.Cursor

@[simp] theorem walk_nil (cursor : Cursor) : cursor.walk [] = cursor := rfl

@[simp] theorem walk_cons (cursor : Cursor) (c : Char) (cs : List Char) :
    cursor.walk (c :: cs) = (cursor.step c).walk cs := rfl

theorem walk_append (cursor : Cursor) (cs ds : List Char) :
    cursor.walk (cs ++ ds) = (cursor.walk cs).walk ds := List.foldl_append

/-- A step moves the offset by the bytes of the character. -/
theorem offset_step (cursor : Cursor) (c : Char) :
    (cursor.step c).position.offset = cursor.position.offset + c.utf8Size := by
  unfold step
  split
  · split <;> rfl
  · rfl

/-- A walk moves the offset by the bytes of what it goes over. -/
theorem offset_walk (cursor : Cursor) (cs : List Char) :
    (cursor.walk cs).position.offset = cursor.position.offset + Text.byteSize cs := by
  induction cs generalizing cursor with
  | nil => simp
  | cons c cs ih =>
      rw [walk_cons, ih, offset_step, Text.byteSize_cons, Nat.add_assoc]

end GraphQL.Cursor
