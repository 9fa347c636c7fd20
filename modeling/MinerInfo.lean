import MinerInfo.Hex
import MinerInfo.Inspection
import MinerInfo.Json.Form
import MinerInfo.Proofs.Extension
import MinerInfo.Proofs.JsonRoundTrip
import MinerInfo.Sha256
import MinerInfo.Proofs.Report
import MinerInfo.Proofs.Runs
import MinerInfo.Proofs.Content
import MinerInfo.Proofs.HexCase
import MinerInfo.Json.Value
import MinerInfo.Proofs.JsonGrammar
import MinerInfo.Proofs.JsonFields
import MinerInfo.Proofs.JsonReading
import MinerInfo.Proofs.Framing
import MinerInfo.Proofs.DisplayForm
import MinerInfo.Proofs.JsonBeginnings
import MinerInfo.Proofs.JsonFaults
import MinerInfo.Proofs.JsonFirstFault
import MinerInfo.Proofs.HexFaults
import MinerInfo.Proofs.JsonHexStrings
import MinerInfo.Proofs.Lengths
import MinerInfo.Proofs.Renderings
import MinerInfo.Proofs.Verifying
import MinerInfo.Proofs.Positions
import MinerInfo.Proofs.HashOrder
import MinerInfo.Proofs.JsonCutOff
import MinerInfo.Proofs.Emission
