import RedPitayaNotes.Support.Clocked
import RedPitayaNotes.Support.Elastic
import RedPitayaNotes.Support.Bits
import RedPitayaNotes.Support.Bursts
import RedPitayaNotes.Support.Pointwise
import RedPitayaNotes.Support.BlockRam
import RedPitayaNotes.Modules.Buffers
import RedPitayaNotes.Cores.AxiHub.Model
import RedPitayaNotes.Cores.AxiHub.Write
import RedPitayaNotes.Cores.AxiHub.Read
import RedPitayaNotes.Cores.AxiHub.Bram
import RedPitayaNotes.Support.RingQueue
import RedPitayaNotes.HfdlReceiver.Client
import RedPitayaNotes.HfdlReceiver.Stream
import RedPitayaNotes.SdrTransceiverWide.TxData
import RedPitayaNotes.Support.Rounding
import RedPitayaNotes.SdrTransceiverWide.TxCtrl
import RedPitayaNotes.SdrReceiverHpsdr.Ep6
import RedPitayaNotes.SdrReceiverHpsdr.Packing
import RedPitayaNotes.Support.BurstRing
import RedPitayaNotes.Cores.AxisRamWriter.Model
import RedPitayaNotes.Cores.AxisRamWriter.Pairing
import RedPitayaNotes.Support.Serial
import RedPitayaNotes.Cores.AxisMiscReader.Model
import RedPitayaNotes.Cores.AxisMiscReader.Uart
import RedPitayaNotes.Cores.CfgSlicer
import RedPitayaNotes.SdrReceiverHpsdr.Ep2
import RedPitayaNotes.SdrReceiverHpsdr.Tuning
import RedPitayaNotes.SdrReceiverHpsdr.Datagrams
import RedPitayaNotes.Cores.AxiHub.Streams
import RedPitayaNotes.Cores.AxiHub.Stable
import RedPitayaNotes.Cores.AxisRamWriter.Data
import RedPitayaNotes.Cores.AxisRamReader.Model
import RedPitayaNotes.Cores.AxisRamReader.Flow
import RedPitayaNotes.Patches.Cma
import RedPitayaNotes.HfdlReceiver.Fanout
import RedPitayaNotes.SdrTransceiverFt8.Upload
import RedPitayaNotes.SdrTransceiverFt8.Bounds
import RedPitayaNotes.Cores.BlockOutputs
import RedPitayaNotes.HfdlReceiver.Bounds
import RedPitayaNotes.HfdlReceiver.Channels
import RedPitayaNotes.SdrTransceiverWide.Control
import RedPitayaNotes.SdrTransceiverWide.Server
import RedPitayaNotes.SdrReceiverHpsdr.Threads
import RedPitayaNotes.Cores.AxisBramReader
import RedPitayaNotes.Cores.Dds.Model
import RedPitayaNotes.Cores.Dds.Symmetry
import RedPitayaNotes.Cores.AxisIirFilter
import RedPitayaNotes.Support.Ipfix
import RedPitayaNotes.SdrTransceiverFt8.Framing
import RedPitayaNotes.SdrTransceiverFt8.Sending
import RedPitayaNotes.Cores.AxisMaxabsFinder
import RedPitayaNotes.Cores.AxisPacketizer
import RedPitayaNotes.Cores.AxisInterpolator
import RedPitayaNotes.Cores.AxisHistogram
import RedPitayaNotes.Cores.AxisPulseHeightAnalyzer
import RedPitayaNotes.Cores.AxisAverager
import RedPitayaNotes.Cores.AxisOscilloscope
import RedPitayaNotes.Cores.AxisAlex
import RedPitayaNotes.Cores.AxisI2s.Bus
import RedPitayaNotes.Cores.AxisI2s.Receiver
import RedPitayaNotes.Cores.AxisI2s.Transmitter
import RedPitayaNotes.Cores.Dds.Alignment
import RedPitayaNotes.Cores.Dsp48
import RedPitayaNotes.Cores.AxisGateController
import RedPitayaNotes.Cores.CfgSlicer.Window
import RedPitayaNotes.Cores.AxisKeyer
import RedPitayaNotes.Cores.AxisRamReaderRadar
import RedPitayaNotes.Cores.AxisBramReader.Status
import RedPitayaNotes.Patches.Si5351.Calc
import RedPitayaNotes.Support.CString
import RedPitayaNotes.Alpine.Server
import RedPitayaNotes.SdrTransceiverFt8.Lines
import RedPitayaNotes.Cores.AxisTagger
import RedPitayaNotes.Cores.AxisVariant
import RedPitayaNotes.Cores.AxisPdm
import RedPitayaNotes.Cores.AxisPpsCounter
import RedPitayaNotes.Cores.GpioDebouncer
import RedPitayaNotes.Cores.DnaReader
import RedPitayaNotes.Cores.AxisMiscReader.Reflect
import RedPitayaNotes.Cores.AxisLfsr
import RedPitayaNotes.Cores.CfgSlicer.Hysteresis
import RedPitayaNotes.HfdlReceiver.Main
import RedPitayaNotes.Support.Handles
import RedPitayaNotes.HfdlReceiver.Moves
import RedPitayaNotes.HfdlReceiver.Descriptors
import RedPitayaNotes.Support.ThreeWire
import RedPitayaNotes.HfdlReceiver.Attenuator
import RedPitayaNotes.HfdlReceiver.Schedule
import RedPitayaNotes.HfdlReceiver.Rotation
import RedPitayaNotes.HfdlReceiver.Progress
import RedPitayaNotes.HfdlReceiver.Delivery
import RedPitayaNotes.Patches.XilinxDevcfg.Write
import RedPitayaNotes.Patches.XilinxDevcfg.Stream
import RedPitayaNotes.Helpers.FpgaBitToBin
import RedPitayaNotes.Patches.XilinxDevcfg.BitFile
import RedPitayaNotes.SdrReceiver.Server
import RedPitayaNotes.SdrReceiver.Stream
import RedPitayaNotes.SdrReceiver.Recording
import RedPitayaNotes.SdrReceiver.Recorder
import RedPitayaNotes.SdrTransceiverWide.RxData
import RedPitayaNotes.Support.RowMajor
import RedPitayaNotes.WriteC2Files.Loops
import RedPitayaNotes.WriteC2Files.Program
import RedPitayaNotes.WriteC2Files.Recording
import RedPitayaNotes.Patches.XilinxDevcfg.Fclk
import RedPitayaNotes.Patches.XilinxDevcfg.Session
