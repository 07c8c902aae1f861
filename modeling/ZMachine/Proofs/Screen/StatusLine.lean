import ZMachine.Host.Transcript
import ZMachine.Machine.Screen
import ZMachine.Proofs.Image
import ZMachine.Proofs.Simulation.Run

/-!
# The parts of the status line

The name of the location is cut or padded to what the right-hand part leaves
free, and the whole line to the width of the screen.  Numbers are words, so
their decimal numerals are short and the right-hand part always fits in its
field: cutting the line takes nothing from it.
-/

namespace ZMachine

open MachineM

/-! ## Bytes of texts -/

namespace Machine

theorem length_fit (width : Nat) (text : List UInt8) : (fit width text).length = width := by
  simp only [fit, List.length_take, List.length_append, List.length_replicate]
  omega

theorem fit_eq (width : Nat) (text : List UInt8) :
    fit width text = text.take width ++ List.replicate (width - text.length) ZString.space := by
  rw [fit, List.take_append, List.take_of_length_le (Nat.le_of_eq List.length_replicate)]

theorem fit_of_le {width : Nat} {text : List UInt8} (h : text.length ≤ width) :
    fit width text = text ++ List.replicate (width - text.length) ZString.space := by
  rw [fit_eq, List.take_of_length_le h]

/-- A line is divided into a left-hand part, cut or padded with blanks, and a
right-hand part, padded but whole, in a field of the given width.  A line that
is narrower than the field has the beginning of the right-hand part only. -/
structure Divided (line : List UInt8) (width : Nat) (left right : List UInt8) : Prop where
  right_fits : right.length ≤ width
  left_eq : width ≤ line.length → line.take (line.length - width) =
    left.take (line.length - width) ++
      List.replicate (line.length - width - left.length) ZString.space
  right_eq : width ≤ line.length → line.drop (line.length - width) =
    right ++ List.replicate (width - right.length) ZString.space
  narrow : line.length < width → line =
    right.take line.length ++ List.replicate (line.length - right.length) ZString.space

theorem Divided.fit {columns width : Nat} {left right : List UInt8} (h : right.length ≤ width) :
    Divided (fit columns (fit (columns - width) left ++ right)) width left right := by
  have hleft := length_fit (columns - width) left
  refine ⟨h, ?_, ?_, ?_⟩ <;> rw [length_fit] <;> intro hwidth
  -- On a wide line both parts together fit, so the outer `fit` only pads.
  · rw [fit_of_le (by rw [List.length_append]; omega), List.append_assoc,
      List.take_left' hleft, fit_eq]
  · rw [fit_of_le (by rw [List.length_append]; omega), List.append_assoc,
      List.drop_left' hleft, List.length_append, hleft]
    congr 2
    omega
  -- On a narrow one nothing is left of the left-hand part.
  · have hnone : columns - width = 0 := by omega
    rw [hnone] at hleft ⊢
    rw [List.eq_nil_of_length_eq_zero hleft, List.nil_append, fit_eq]

/-! ## What is shown -/

end Machine

namespace Image

end Image

namespace Machine

variable {M H : Type} [AddressSpace M]

end Machine

end ZMachine
