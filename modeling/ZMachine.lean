import ZMachine.CommandLine
import ZMachine.Dictionary
import ZMachine.Fault
import ZMachine.FileSystem
import ZMachine.Header
import ZMachine.Host
import ZMachine.Host.Journal
import ZMachine.Host.Pipe
import ZMachine.Host.Transcript
import ZMachine.Instruction.Form
import ZMachine.Instruction.Operand
import ZMachine.Instruction.Operation
import ZMachine.Interpreter
import ZMachine.Machine.Arithmetic
import ZMachine.Machine.Input
import ZMachine.Machine.Output
import ZMachine.Machine.Restart
import ZMachine.Machine.Routine
import ZMachine.Machine.SaveFile
import ZMachine.Machine.Screen
import ZMachine.Machine.Stack
import ZMachine.Machine.State
import ZMachine.Machine.Table
import ZMachine.Machine.Variable
import ZMachine.Main
import ZMachine.Memory
import ZMachine.Memory.Cache
import ZMachine.Memory.Storage
import ZMachine.Numeral
import ZMachine.Object
import ZMachine.Proofs.Cache.Consistency
import ZMachine.Proofs.Cache.History
import ZMachine.Proofs.Cache.Metered
import ZMachine.Proofs.Cache.Recency
import ZMachine.Proofs.Cache.Refinement
import ZMachine.Proofs.Cache.Run
import ZMachine.Proofs.Dictionary.Collision
import ZMachine.Proofs.Dictionary.Places
import ZMachine.Proofs.Dictionary.Records
import ZMachine.Proofs.Dictionary.Search
import ZMachine.Proofs.Frame.Boundary
import ZMachine.Proofs.Frame.Bounds
import ZMachine.Proofs.Frame.Capacity
import ZMachine.Proofs.Frame.Catch
import ZMachine.Proofs.Frame.Chain
import ZMachine.Proofs.Frame.Inside
import ZMachine.Proofs.Frame.Link
import ZMachine.Proofs.Frame.Operation
import ZMachine.Proofs.Frame.Return
import ZMachine.Proofs.Frame.Step
import ZMachine.Proofs.Frame.Survival
import ZMachine.Proofs.Frame.Throw
import ZMachine.Proofs.Frame.Trace
import ZMachine.Proofs.Image
import ZMachine.Proofs.Input.Line
import ZMachine.Proofs.Instruction.Branch
import ZMachine.Proofs.Instruction.Decode
import ZMachine.Proofs.Instruction.Encoding
import ZMachine.Proofs.Logged
import ZMachine.Proofs.Object.Attribute
import ZMachine.Proofs.Object.Forest
import ZMachine.Proofs.Object.Move
import ZMachine.Proofs.Object.Operand
import ZMachine.Proofs.Output.Ledger
import ZMachine.Proofs.Output.Streams
import ZMachine.Proofs.Property.Map
import ZMachine.Proofs.Property.Table
import ZMachine.Proofs.Property.Walk
import ZMachine.Proofs.Property.Width
import ZMachine.Proofs.Restart.Reach
import ZMachine.Proofs.Restart.Restore
import ZMachine.Proofs.Restart.Scripting
import ZMachine.Proofs.Screen.StatusLine
import ZMachine.Proofs.Screen.Wrapping
import ZMachine.Proofs.Simulation
import ZMachine.Proofs.Simulation.Instruction
import ZMachine.Proofs.Simulation.Machine
import ZMachine.Proofs.Simulation.Memory
import ZMachine.Proofs.Simulation.Run
import ZMachine.Proofs.Simulation.Story
import ZMachine.Proofs.Storage
import ZMachine.Proofs.Table.Copy
import ZMachine.Proofs.Table.Element
import ZMachine.Proofs.Token.Partition
import ZMachine.Proofs.ZString.Decoding
import ZMachine.Proofs.ZString.DictionaryForm
import ZMachine.Proofs.ZString.Ending
import ZMachine.Proofs.ZString.Expansion
import ZMachine.Proofs.ZString.Locking
import ZMachine.Proofs.ZString.Packing
import ZMachine.Proofs.ZString.RoundTrip
import ZMachine.Proofs.ZString.Shifting
import ZMachine.Proofs.ZString.Truncation
import ZMachine.Property
import ZMachine.Quoted
import ZMachine.Random
import ZMachine.Random.ChaCha
import ZMachine.Session
import ZMachine.Settings
import ZMachine.Settings.File
import ZMachine.Token
import ZMachine.Toml.Document
import ZMachine.Toml.Item
import ZMachine.Toml.Scalar
import ZMachine.Toml.Text
import ZMachine.Utf8
import ZMachine.Word
import ZMachine.ZString.Alphabet
import ZMachine.ZString.Decode
import ZMachine.ZString.Display
import ZMachine.ZString.Encode
