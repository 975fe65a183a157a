import ScriptLowering.Code.Exchange.Reader
import ScriptLowering.Code.Exchange.Writer
import ScriptLowering.Code.Printer
import ScriptLowering.Compile
import ScriptLowering.Options.Reader
import ScriptLowering.Proofs.BoundCalls
import ScriptLowering.Proofs.EarlyBinding
import ScriptLowering.Proofs.Receiver
import ScriptLowering.Proofs.ReceiverClass
import ScriptLowering.Proofs.References
import ScriptLowering.Proofs.Reporting
import ScriptLowering.Proofs.Resumption
import ScriptLowering.Proofs.Routing.Function
import ScriptLowering.Proofs.Safety
import ScriptLowering.Proofs.SlotTable
import ScriptLowering.Proofs.Stillness
import ScriptLowering.Proofs.SuperCall
import ScriptLowering.Proofs.TypeNormalization
import ScriptLowering.Proofs.Unboxed
