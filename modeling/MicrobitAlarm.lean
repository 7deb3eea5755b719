import MicrobitAlarm.Lib.Trace
import MicrobitAlarm.Lib.CircularBuffer
import MicrobitAlarm.Lib.Framing
import MicrobitAlarm.Lib.Segments
import MicrobitAlarm.Lib.Decimal
import MicrobitAlarm.Lib.Clock
import MicrobitAlarm.Lib.RoundRobin
import MicrobitAlarm.Lib.FirstFit
import MicrobitAlarm.Lib.Cursor
import MicrobitAlarm.Lib.LinkedQueue
import MicrobitAlarm.Lib.Raster
import MicrobitAlarm.Firmware.ManagedString
import MicrobitAlarm.Firmware.Commands
import MicrobitAlarm.Firmware.Pins
import MicrobitAlarm.Firmware.Uart
import MicrobitAlarm.Firmware.Board
import MicrobitAlarm.Firmware.Fibers
import MicrobitAlarm.Firmware.Steps
import MicrobitAlarm.Firmware.Heap
import MicrobitAlarm.Firmware.MessageBus
import MicrobitAlarm.Firmware.Callback
import MicrobitAlarm.Firmware.Scheduler
import MicrobitAlarm.Firmware.RefCounted
import MicrobitAlarm.Firmware.StringData
import MicrobitAlarm.Firmware.Image
import MicrobitAlarm.Firmware.Display
import MicrobitAlarm.App.MainActivity
import MicrobitAlarm.App.Gatt
import MicrobitAlarm.Runs.Script
import MicrobitAlarm.Runs.Ledger
import MicrobitAlarm.Runs.Stream
import MicrobitAlarm.Runs.Progress
import MicrobitAlarm.Runs.Schedules
import MicrobitAlarm.Runs.Handlers
import MicrobitAlarm.Runs.Heap
import MicrobitAlarm.Runs.MessageBus
import MicrobitAlarm.Runs.Listeners
import MicrobitAlarm.Runs.Callback
import MicrobitAlarm.Runs.Scheduler
import MicrobitAlarm.Runs.Walks
import MicrobitAlarm.Runs.Turns
import MicrobitAlarm.Runs.Strings
import MicrobitAlarm.Runs.Display
import MicrobitAlarm.Runs.Film
import MicrobitAlarm.Properties.Deadline
import MicrobitAlarm.Properties.Recording
import MicrobitAlarm.Properties.Replay
import MicrobitAlarm.Properties.Segments
import MicrobitAlarm.Properties.Scripts
import MicrobitAlarm.Properties.Sleeps
import MicrobitAlarm.Properties.Servo
import MicrobitAlarm.Properties.Delivery
import MicrobitAlarm.Properties.Connections
import MicrobitAlarm.Properties.Echo
import MicrobitAlarm.Properties.Protocol
import MicrobitAlarm.Properties.Gatt
import MicrobitAlarm.Properties.Flag
import MicrobitAlarm.Properties.Heap
import MicrobitAlarm.Properties.MessageBus
import MicrobitAlarm.Properties.Callback
import MicrobitAlarm.Properties.Scheduler
import MicrobitAlarm.Properties.Strings
import MicrobitAlarm.Properties.Display
